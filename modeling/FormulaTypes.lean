import FormulaTypes.Catalog.Basic
import FormulaTypes.Checker.Coercion
import FormulaTypes.Checker.Intersection
import FormulaTypes.Checker.Union
import FormulaTypes.Memo
import FormulaTypes.Proofs.Number.Shortest
import FormulaTypes.Proofs.Number.ReadBack
import FormulaTypes.Proofs.NameMap
import FormulaTypes.Proofs.Spec.Grammar
import FormulaTypes.Proofs.Ty.Equality
import FormulaTypes.Proofs.Ty.Sound
import FormulaTypes.Proofs.Spec.RoundTrip
import FormulaTypes.Proofs.Run
import FormulaTypes.Proofs.Checker.Acceptance
import FormulaTypes.Proofs.Checker.Equality
import FormulaTypes.Proofs.Checker.Ends
import FormulaTypes.Proofs.Checker.Joins
import FormulaTypes.Proofs.Checker.UpperBound
import FormulaTypes.Proofs.Checker.Transitive
import FormulaTypes.Proofs.Checker.Commutative
import FormulaTypes.Proofs.Checker.CoercionSound
import FormulaTypes.Proofs.Checker.CoercionSubtype
import FormulaTypes.Proofs.Ty.Structural
import FormulaTypes.Proofs.Checker.Mismatch
import FormulaTypes.Proofs.Catalog.Packed
import FormulaTypes.Proofs.Catalog.Record
import FormulaTypes.Proofs.Catalog.History
import FormulaTypes.Proofs.Checker.LeastBound
import FormulaTypes.Proofs.Ty.Edits
import FormulaTypes.Proofs.Spec.Sound
import FormulaTypes.Proofs.Checker.Validity
import FormulaTypes.Proofs.Checker.Agreement
import FormulaTypes.Proofs.Checker.EqualResults
import FormulaTypes.Proofs.Checker.Associative
import FormulaTypes.Proofs.Checker.Merges
import FormulaTypes.Proofs.Checker.UnionLaws
import FormulaTypes.Proofs.Checker.Overlaps
import FormulaTypes.Proofs.Checker.Shortcuts
import FormulaTypes.Proofs.Checker.Permissive
import FormulaTypes.Proofs.Checker.Semilattice
import FormulaTypes.Proofs.Spec.Exact
import FormulaTypes.Proofs.Spec.Expressible
import FormulaTypes.Proofs.Memo
import FormulaTypes.Proofs.Ty.LazyEdits
import FormulaTypes.Proofs.Checker.LazyInterchange
import FormulaTypes.Proofs.Resolving
import FormulaTypes.Proofs.Ty.Pool
import FormulaTypes.Proofs.Checker.Conflicts
import FormulaTypes.Proofs.Checker.UnionBelow
import FormulaTypes.Proofs.Checker.Sources
import FormulaTypes.Proofs.Checker.Promotion
import FormulaTypes.Proofs.Checker.EntityDepth
import FormulaTypes.Proofs.Checker.Unsafe
import FormulaTypes.Proofs.FieldMap
import FormulaTypes.Proofs.FieldPath
import FormulaTypes.Proofs.Spec.Viable
