import FormulaTypes.Checker.Comparison
import FormulaTypes.Proofs.Checker.Mismatch

/-!
# Comparisons report the first mismatch

An acceptor walks with a stack of names and with what it remembers; a check has neither and gives its mismatch as it
goes up. Started without a difference at any path, the acceptor makes the run of the check, is back at the path
afterwards, and remembers the mismatch of the check if there is one, placed under the path (`Reports`). Each step of the
walk keeps this: a field goes down and up again (`reports_inField`), an aggregate adds nothing to what one of its fields
has told (`reports_first`), and an enum replaces what its base has told (`reports_restricted`). So whole walks do
(`reports_accepts`), and a comparison is the check with its path written out (`compare_eq`).
-/

namespace FormulaTypes

/-- The mismatch as it is told at a path. -/
def Mismatch.seenFrom (m : Mismatch) (path : FieldPath) : Difference := ⟨(path ++ m.path).text, m.expected, m.actual⟩

namespace Comparing

variable {α : Type} {walk : Comparing Bool} {check : Run (Option Mismatch)} {dst src : Ty} {name : Bytes}

/-- From any path, a walk makes the run of a check, comes back to the path, and remembers what the check has found. -/
def Reports (walk : Comparing Bool) (check : Run (Option Mismatch)) : Prop :=
  ∀ path, walk.run ⟨path, none⟩ = check >>= fun m => pure (m.isNone, ⟨path, m.map (·.seenFrom path)⟩)

/-! ## Steps of the walk -/

theorem reports_accept : Reports (pure true) Checker.accept := fun _ => rfl

theorem reports_fail (expected : Ty) (actual : Option Ty) :
    Reports (fail expected actual) (pure (some ⟨[], expected, actual⟩)) := by
  intro path
  change (pure (false, ⟨path, some ⟨path.text, expected, actual⟩⟩) : Run (Bool × Acceptor)) =
    pure (false, ⟨path, some ⟨FieldPath.text (path ++ []), expected, actual⟩⟩)
  rw [List.append_nil]

theorem reports_reject (dst src : Ty) : Reports (fail dst (some src)) (Checker.reject dst src) := reports_fail _ _

theorem reports_ite {p : Prop} [Decidable p] {walk' : Comparing Bool} {check' : Run (Option Mismatch)}
    (h : p → Reports walk check) (h' : ¬ p → Reports walk' check') :
    Reports (if p then walk else walk') (if p then check else check') := by
  split
  · next hp => exact h hp
  · next hp => exact h' hp

theorem reports_acceptIf (test : Bool) (dst src : Ty) :
    Reports (acceptIf test dst src) (Checker.acceptIf test dst src) :=
  reports_ite (fun _ => reports_accept) fun _ => reports_reject dst src

theorem reports_lift {x : Run α} {next : α → Comparing Bool} {next' : α → Run (Option Mismatch)}
    (h : ∀ a, x.outcome = .ok a → Reports (next a) (next' a)) : Reports (lift x >>= next) (x >>= next') := by
  intro path
  have hrun : (lift x >>= next).run ⟨path, none⟩ = x >>= fun a => (next a).run ⟨path, none⟩ := by
    rw [StateT.run_bind, lift, StateT.run_lift, bind_assoc]
    rfl
  rw [hrun, bind_assoc]
  exact Run.bind_congr_of_ok fun a ha => h a ha path

/-- A walk that ends in a fault remembers nothing. -/
theorem reports_fault (fault : Fault) : Reports (lift (Run.fail fault)) (Run.fail fault) := fun _ => rfl

/-- What a walk does after another one, with what that one came to. -/
theorem Reports.run_bind (h : Reports walk check) (next : Bool → Comparing Bool) (path : FieldPath) :
    (walk >>= next).run ⟨path, none⟩ =
      check >>= fun m => (next m.isNone).run ⟨path, m.map (·.seenFrom path)⟩ := by
  rw [StateT.run_bind, h path, bind_assoc]
  rfl

/-- What was found at the base of an enum is forgotten, and the enum itself is told. -/
theorem reports_restricted (h : Reports walk check) :
    Reports (do
        if ← walk then return true
        modify Acceptor.forget
        fail dst (some src))
      (do Checker.acceptIf (← check).isNone dst src) := by
  intro path
  rw [h.run_bind, bind_assoc]
  refine congrArg (check >>= ·) (funext fun m => ?_)
  cases m with
  | none => rfl
  | some m => exact reports_reject dst src path

/-- What is found in a field is told with the name of the field behind the path, and the path is as before. -/
theorem reports_inField (h : Reports walk check) :
    Reports (inField name walk) (do return (← check).map (·.under name)) := by
  intro path
  have hrun : (inField name walk).run ⟨path, none⟩ =
      walk.run ⟨path.push name, none⟩ >>= fun r => pure (r.1, r.2.pop) := rfl
  rw [hrun, h, bind_assoc, bind_assoc]
  refine congrArg (check >>= ·) (funext fun m => ?_)
  have hpop : (path.push name).pop = path := List.dropLast_concat
  have hseen : (m.map (·.under name)).map (·.seenFrom path) = m.map (·.seenFrom (path.push name)) := by
    cases m with
    | none => rfl
    | some m => rw [Option.map_some, Option.map_some, Option.map_some, Mismatch.seenFrom, Mismatch.seenFrom,
        Mismatch.under, FieldPath.push, List.append_assoc, List.singleton_append]
  change (pure (m.isNone, ⟨(path.push name).pop, m.map (·.seenFrom (path.push name))⟩) : Run (Bool × Acceptor)) =
    pure ((m.map (·.under name)).isNone, ⟨path, (m.map (·.under name)).map (·.seenFrom path)⟩)
  rw [hpop, hseen, Option.isNone_map]

/-- A walk along fields stops where the check does. -/
theorem reports_allAlong {fields : List (Bytes × Ty)} {look : Bytes → Ty → Comparing Bool}
    {look' : Bytes → Ty → Run (Option Mismatch)} (h : ∀ e ∈ fields, Reports (look e.1 e.2) (look' e.1 e.2)) :
    Reports (allAlong fields look) (Run.firstAlong fields look') := by
  induction fields with
  | nil => exact reports_accept
  | cons e fields ih =>
    obtain ⟨hfirst, hrest⟩ := List.forall_mem_cons.1 h
    intro path
    rw [allAlong, Run.firstAlong, hfirst.run_bind, bind_assoc]
    refine congrArg (_ >>= ·) (funext fun m => ?_)
    cases m with
    | none => exact ih hrest path
    | some m => rfl

/-- The first difference is kept: an aggregate adds nothing to that of one of its fields. -/
theorem reports_first (h : Reports walk check) :
    Reports (do if ← walk then return true else fail dst (some src)) check := by
  intro path
  rw [h.run_bind]
  refine congrArg (check >>= ·) (funext fun m => ?_)
  cases m <;> rfl

end Comparing

open Comparing

namespace Checker

variable {c : Checker} {dst src : Ty}

/-! ## Walks through types -/

/-- The mismatch at a field, told at the field itself. -/
def checkInside (c : Checker) (dst src : Ty) (name : Bytes) (expected : Ty) : Run (Option Mismatch) := do
  Run.note (src.demand name)
  match src.field? name with
  | some actual => c.check expected actual
  | none => if c.rules.exact && !dst.optional then pure (some ⟨[], expected, none⟩) else accept

theorem checkField_eq_under {name : Bytes} {expected : Ty} : c.checkField dst src name expected =
    if expected.kind = .error then accept
    else do return (← c.checkInside dst src name expected).map (·.under name) := by
  rw [checkField_eq, checkInside, bind_assoc]
  refine if_congr Iff.rfl rfl (congrArg (_ >>= ·) (funext fun _ => ?_))
  cases src.field? name with
  | some actual => rfl
  | none =>
    dsimp only
    split <;> rfl

theorem reports_fields
    (h : ∀ e ∈ dst.fields, ∀ actual, src.field? e.1 = some actual →
      Reports (Acceptor.accepts c e.2 actual) (c.check e.2 actual)) :
    Reports (Acceptor.fieldsAccept c dst src) (c.checkFields dst src) := by
  rw [Acceptor.fieldsAccept, checkFields_eq]
  refine reports_ite (fun _ => reports_accept) fun _ => reports_first (reports_allAlong fun e he => ?_)
  rw [checkField_eq_under]
  refine reports_ite (fun _ => reports_accept) fun _ => reports_inField (reports_lift fun _ _ => ?_)
  split
  · next actual hfound =>
    rw [hfound]
    exact h e he actual hfound
  · next hfound =>
    rw [hfound]
    exact reports_ite (fun _ => reports_fail _ _) fun _ => reports_accept

theorem reports_aggregate (h : Reports (Acceptor.fieldsAccept c dst src) (c.checkFields dst src)) :
    Reports (Acceptor.aggregateAccepts c dst src) (c.checkAggregate dst src) := by
  rw [Acceptor.aggregateAccepts, checkAggregate_eq]
  refine reports_ite (fun _ => ?_) fun _ => reports_ite (fun _ => reports_accept) fun _ => ?_
  · exact reports_ite (fun _ => h) fun _ => reports_reject dst src
  · exact reports_ite (fun _ => h) fun _ => reports_reject dst src

theorem reports_lazy (h : ∀ seen, Reports (Acceptor.fieldsAccept c seen src) (c.checkFields seen src)) :
    Reports (Acceptor.lazyAccepts c dst src) (c.checkLazy dst src) := by
  rw [Acceptor.lazyAccepts, checkLazy_eq]
  refine reports_ite (fun _ => ?_) fun _ => ?_
  · refine reports_ite (fun _ => ?_) fun _ => reports_reject dst src
    exact reports_lift fun same _ => reports_acceptIf same dst src
  · refine reports_ite (fun _ => reports_lift fun found _ => ?_) fun _ => reports_reject dst src
    cases found with
    | some expanded => exact h expanded
    | none => exact reports_reject dst src

/-- From any path, an acceptor makes the run of a check and tells its mismatch. -/
theorem reports_accepts (c : Checker) (dst src : Ty) : Reports (Acceptor.accepts c dst src) (c.check dst src) := by
  induction src using Ty.weightInduction generalizing dst with
  | step src ih =>
    have hfields : ∀ seen, Reports (Acceptor.fieldsAccept c seen src) (c.checkFields seen src) := by
      intro seen
      exact reports_fields fun e _ actual hfound => ih actual (Ty.weight_lt_of_field? hfound) e.2
    rw [Acceptor.accepts, check_eq]
    refine reports_ite (fun _ => reports_reject dst src) fun _ => reports_ite (fun _ => reports_accept) fun _ => ?_
    refine reports_ite (fun _ => reports_acceptIf _ dst src) fun _ => ?_
    by_cases hr : src.kind = .enum ∧ dst.kind ≠ .enum
    · rw [dif_pos hr, if_pos hr]
      split
      · next fault hfault =>
        rw [hfault]
        exact reports_fault fault
      · next base hbase =>
        rw [hbase]
        exact reports_restricted (ih base (weight_ofKind_lt hr.1 hbase) dst)
    rw [dif_neg hr, if_neg hr]
    cases hform : dst.form with
    | leaf k hk =>
      by_cases hentity : k = .dataEntity
      · subst hentity
        refine reports_ite (fun _ => reports_accept) fun _ => reports_ite (fun _ => ?_) fun _ => reports_reject dst src
        rw [checkEntity_eq]
        refine reports_lift fun found _ => ?_
        cases found with
        | none => exact reports_reject dst src
        | some table =>
          refine reports_ite (fun _ => ?_) fun _ => reports_lift fun record _ => reports_aggregate (hfields record)
          exact reports_aggregate (hfields table)
      · cases k <;> first | exact absurd rfl hentity | exact reports_acceptIf _ dst src
    | enum superkind values => exact reports_acceptIf _ dst src
    | choices choice fields => exact reports_acceptIf _ dst src
    | aggregate shape optional fields => exact reports_aggregate (hfields dst)
    | lazy isTable optional provider => exact reports_lazy hfields

/-! ## Comparisons -/

/-- A comparison is the run of the check, and tells its mismatch. -/
theorem compare_eq (c : Checker) (dst src : Ty) :
    c.compare dst src = c.check dst src >>= fun m => pure ⟨m.isNone, m.map (·.seenFrom [])⟩ := by
  rw [compare, Acceptor.start, reports_accepts c dst src [], bind_assoc]
  refine congrArg (_ >>= ·) (funext fun m => ?_)
  cases m <;> rfl

/-- **Comparisons report the first mismatch**: a comparison is the run of acceptance, and has a difference exactly if
the source is not accepted. A difference tells the text of a path of fields. Along the path the destination, with what
may be seen in its place, has what was expected, and the source has what is told, which is not accepted there, or it
lacks the last field and may not. -/
theorem compare_reports_first_mismatch (hd : dst.Sound) (hs : src.Sound) :
    (c.Answers → (c.compare dst src).Ends) ∧
      (do return (← c.compare dst src).accepted) = c.accepts dst src ∧
      ∀ r, (c.compare dst src).outcome = .ok r →
        (r.diff = none ↔ r.accepted = true) ∧
        ∀ d, r.diff = some d → ∃ p : FieldPath, d.path = p.text ∧
          c.Pinpoints dst src ⟨p, d.expected, d.actual⟩ ∧ c.WalksTo dst p d.expected ∧ src.walk? p = d.actual ∧
          (d.actual = none → ∃ before name, p = before ++ [name] ∧ c.Lacks dst src before name d.expected) ∧
          ∀ actual, d.actual = some actual → (c.accepts d.expected actual).outcome = .ok false := by
  rw [compare_eq]
  refine ⟨fun ha => ?_, by rw [bind_assoc]; rfl, fun r hr => ?_⟩
  · exact Run.ends_bind (ends_check ha hd.provided hs) fun m _ => Run.ends_pure _
  obtain ⟨m, hm, hr⟩ := Run.bind_eq_ok_iff.1 hr
  cases hr
  refine ⟨by rw [Option.map_eq_none_iff, Option.isNone_iff_eq_none], ?_⟩
  rintro d hdiff
  obtain ⟨m, rfl, rfl⟩ := Option.map_eq_some_iff.1 hdiff
  have hpin := pinpoints_of_check hd.inOrder hm
  exact ⟨m.path, rfl, hpin, hpin.walksTo hd.inOrder, hpin.walk?, hpin.lacks hd.inOrder, fun _ h => hpin.refuses h⟩

/-- An entity of a number and a flag. -/
def numberAndFlag : Entity where
  fields := [(Bytes.ofString "B", .ofForm (Ty.bareForm .number)), (Bytes.ofString "C", .ofForm (Ty.bareForm .boolean))]
  sources := []
  ordered := by decide
  inOrder := by decide +kernel

/-- A checker that knows one entity. -/
def entityChecker : Checker := ⟨.standard, some fun _ => .ok (some numberAndFlag), true⟩

/-- The entity that it knows. -/
def knownEntity : Ty := .node (Ty.bareForm .dataEntity) (some ⟨Bytes.ofString "t", none⟩) ∅

/-- What it resolves to. -/
def resolvedEntity : Ty := .node (.aggregate .record false numberAndFlag.fields) (some ⟨Bytes.ofString "t", none⟩) ∅

/-- An enum of texts. -/
def namedText : Ty := .ofForm (.enum .string (.ofList [(Bytes.ofString "x", .text (Bytes.ofString "y"))]))

/-- A record of a number and an enum of texts. -/
def textRecord : Ty :=
  .ofForm (.aggregate .record false
    [(Bytes.ofString "B", .ofForm (Ty.bareForm .number)), (Bytes.ofString "C", namedText)])

/-- A record of one field. -/
def recordOf (t : Ty) : Ty := .ofForm (.aggregate .record false [(Bytes.ofString "A", t)])

/-- Texts are no flags. -/
theorem check_namedText :
    (entityChecker.check (.ofForm (Ty.bareForm .boolean)) namedText).outcome =
      .ok (some ⟨[], .ofForm (Ty.bareForm .boolean), some namedText⟩) := by
  have hbase : (entityChecker.check (.ofForm (Ty.bareForm .boolean)) (.ofForm (Ty.bareForm .string))).outcome =
      .ok (some ⟨[], .ofForm (Ty.bareForm .boolean), some (.ofForm (Ty.bareForm .string))⟩) := by
    rw [check_eq]
    rfl
  rw [check_eq]
  exact Run.bind_of_ok hbase

/-- The enum stands where a flag is expected. -/
theorem check_textRecord :
    (entityChecker.check knownEntity textRecord).outcome =
      .ok (some ⟨[Bytes.ofString "C"], .ofForm (Ty.bareForm .boolean), some namedText⟩) := by
  have hnumber : entityChecker.Fits (.ofForm (Ty.bareForm .number)) (.ofForm (Ty.bareForm .number)) := by
    rw [Fits, check_eq]
    rfl
  have hfieldwise : Fieldwise resolvedEntity textRecord := ⟨rfl, .inl rfl⟩
  rw [check_eq]
  change (entityChecker.checkAggregate resolvedEntity textRecord).outcome = _
  rw [checkAggregate_of_fieldwise hfieldwise, checkFields_eq, if_neg (by decide), Run.firstAlong_eq_some_iff]
  refine ⟨[(Bytes.ofString "B", .ofForm (Ty.bareForm .number))], _, [], rfl, List.forall_mem_singleton.2 ?_, ?_⟩
  · exact checkField_eq_none_iff.2 (.inr (.inl ⟨_, rfl, hnumber⟩))
  · exact checkField_eq_some_iff.2 ⟨by decide, .inl ⟨_, _, rfl, check_namedText, rfl⟩⟩

theorem compare_reports_first_mismatch_recordOf :
    (recordOf knownEntity).Sound ∧ (recordOf textRecord).Sound ∧
      (entityChecker.compare (recordOf knownEntity) (recordOf textRecord)).outcome =
        .ok ⟨false, some ⟨Bytes.ofString "A.C", .ofForm (Ty.bareForm .boolean), some namedText⟩⟩ ∧
      ∃ p : FieldPath, Bytes.ofString "A.C" = p.text ∧
        entityChecker.Pinpoints (recordOf knownEntity) (recordOf textRecord)
          ⟨p, .ofForm (Ty.bareForm .boolean), some namedText⟩ ∧
        (recordOf textRecord).walk? p = some namedText := by
  have hd : (recordOf knownEntity).Sound := by decide +kernel
  have hs : (recordOf textRecord).Sound := by decide +kernel
  have hcheck : (entityChecker.check (recordOf knownEntity) (recordOf textRecord)).outcome =
      .ok (some ⟨[Bytes.ofString "A", Bytes.ofString "C"], .ofForm (Ty.bareForm .boolean), some namedText⟩) := by
    have hfieldwise : Fieldwise (recordOf knownEntity) (recordOf textRecord) := ⟨rfl, .inl rfl⟩
    rw [check_of_fieldwise hfieldwise, checkFields_eq, if_neg (by decide), Run.firstAlong_eq_some_iff]
    refine ⟨[], _, [], rfl, List.forall_mem_nil _, ?_⟩
    exact checkField_eq_some_iff.2 ⟨by decide, .inl ⟨_, _, rfl, check_textRecord, rfl⟩⟩
  have htext : FieldPath.text [Bytes.ofString "A", Bytes.ofString "C"] = Bytes.ofString "A.C" := by decide +kernel
  have hcompare : (entityChecker.compare (recordOf knownEntity) (recordOf textRecord)).outcome =
      .ok ⟨false, some ⟨Bytes.ofString "A.C", .ofForm (Ty.bareForm .boolean), some namedText⟩⟩ := by
    rw [compare_eq, Run.bind_of_ok hcheck, ← htext]
    rfl
  obtain ⟨p, hp, hpin, -, hwalk, -⟩ := ((compare_reports_first_mismatch hd hs).2.2 _ hcompare).2 _ rfl
  exact ⟨hd, hs, hcompare, p, hp, hpin, hwalk⟩

end Checker

end FormulaTypes
