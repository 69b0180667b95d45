import FormulaTypes.Ty.Basic

/-!
# Digests and equality of types

Equality of types looks at everything but the sources. Field maps are equal if their lengths, their entries and their
digests are; types that are equal have the same digest.
-/

namespace FormulaTypes

/-- The part of a digest message that every type has. -/
def headMessage (kind superkind : Kind) (optional : Bool) : Bytes :=
  Digest.nat kind.index ++ Digest.nat superkind.index ++ Digest.flag optional

/-- What a token contributes to a digest. -/
def Token.message : Option Token → Bytes
  | none => []
  | some token => Digest.text token.key

/-- What a provider contributes to a digest. -/
def Provider.message {α : Type} : Option (Provider α) → Bytes
  | none => []
  | some p => Digest.text p.identity ++ Digest.nat p.resolvers.length

/-- Both absent, or both of the same shape. -/
def Provider.sameShape? {α : Type} : Option (Provider α) → Option (Provider α) → Bool
  | none, none => true
  | some p, some q => p.sameShape q
  | _, _ => false

mutual

/-- The digest of a type. -/
def Ty.digest : Ty → UInt64
  | .node (.leaf kind _) token _ => Digest.ofBytes (headMessage kind .invalid false ++ Token.message token)
  | .node (.enum superkind values) token _ =>
    Digest.ofBytes (headMessage .enum superkind false ++ Digest.word values.digest ++ Token.message token)
  | .node (.choices choice fields) token _ =>
    Digest.ofBytes (headMessage choice.kind .invalid false ++
      Digest.word (Digest.ofBytes (Digest.nat fields.length ++ fieldsMessage fields)) ++ Token.message token)
  | .node (.aggregate shape optional fields) token _ =>
    Digest.ofBytes (headMessage shape.kind .invalid optional ++
      Digest.word (Digest.ofBytes (Digest.nat fields.length ++ fieldsMessage fields)) ++ Token.message token)
  | .node (.lazy isTable optional provider) token _ =>
    Digest.ofBytes (headMessage (if isTable then .lazyTable else .lazyRecord) .invalid optional ++
      Token.message token ++ Provider.message provider)

/-- What the entries of a field map contribute to its digest. -/
def fieldsMessage : List (Bytes × Ty) → Bytes
  | [] => []
  | (name, t) :: rest => Digest.text name ++ Digest.word t.digest ++ fieldsMessage rest

end

/-- The digest of a field map. -/
def fieldsDigest (fields : NameMap Ty) : UInt64 :=
  Digest.ofBytes (Digest.nat fields.length ++ fieldsMessage fields)

mutual

/-- Equality of types, sources aside. -/
def Ty.equal : @& Ty → @& Ty → Bool
  | .node (.leaf k _) s _, .node (.leaf l _) t _ => k = l && Token.same s t
  | .node (.enum k vs) s _, .node (.enum l ws) t _ => k = l && Token.same s t && vs.equal ws
  | .node (.choices c fs) s _, .node (.choices d gs) t _ =>
    c = d && Token.same s t && (fs.length = gs.length && fieldsAgree fs gs && fieldsDigest fs = fieldsDigest gs)
  | .node (.aggregate x o fs) s _, .node (.aggregate y p gs) t _ =>
    x = y && o = p && Token.same s t &&
      (fs.length = gs.length && fieldsAgree fs gs && fieldsDigest fs = fieldsDigest gs)
  | .node (.lazy a o p) s _, .node (.lazy b q r) t _ =>
    a = b && o = q && Token.same s t && Provider.sameShape? p r
  | _, _ => false

/-- The same names with equal types, entry by entry. -/
def fieldsAgree : @& List (Bytes × Ty) → @& List (Bytes × Ty) → Bool
  | [], [] => true
  | (a, t) :: fs, (b, u) :: gs => a == b && t.equal u && fieldsAgree fs gs
  | _, _ => false

end

/-- Equality of field maps: of their lengths, their entries and their digests. -/
def fieldsEqual (fs gs : NameMap Ty) : Bool :=
  fs.length = gs.length && fieldsAgree fs gs && fieldsDigest fs = fieldsDigest gs

/-- Equal types are of one kind. -/
theorem Ty.kind_eq_of_equal {t u : Ty} (h : t.equal u = true) : t.kind = u.kind := by
  obtain ⟨f, _, _⟩ := t
  obtain ⟨g, _, _⟩ := u
  cases f <;> cases g <;> simp only [equal, Bool.and_eq_true, decide_eq_true_eq, Bool.false_eq_true] at h
  case lazy.lazy a _ _ _ _ _ => rw [← h.1.1.1]; cases a <;> rfl
  all_goals simp_all only [kind, form, Form.kind]

end FormulaTypes
