import FormulaTypes.Proofs.Checker.Acceptance
import FormulaTypes.Proofs.Checker.Expansion
import FormulaTypes.Proofs.Memo
import FormulaTypes.Proofs.Ty.Edits

/-!
# Lazy types under edits

A lazy type goes through the same edits as the aggregate that it expands to, and one edit leads from such a pair to
another one (`exists_edit_expands`): binding and unbinding a name commute with resolving all fields
(`Provider.fields_bind`, `Provider.fields_unbind`).

A session keeps every version of a type, and one memo for all their providers. An edited provider gets a cell of its
own, so what was remembered for one version is never found for another one (`Consistent`). Hence each version answers,
at any time, as the version of the expansion after the same edits does (`exists_run_expands`).
-/

namespace FormulaTypes

/-! ## Fields of edited providers -/

namespace Provider

variable {p : Provider Ty}

theorem find?_fields (h : NameMap.Ordered p.resolvers) (name : Bytes) : NameMap.find? p.fields name = p.get? name :=
  NameMap.find?_filterMap h name

/-- Binding a name and resolving all fields commute. -/
theorem fields_bind (h : NameMap.Ordered p.resolvers) (name : Bytes) (t : Ty) :
    (p.bind name (.bound t)).fields = NameMap.insert p.fields name t := by
  have hbind : NameMap.Ordered (p.bind name (.bound t)).resolvers := h.insert name _
  refine NameMap.eq_of_find? (Checker.ordered_fields hbind) ((Checker.ordered_fields h).insert name t) fun other => ?_
  rw [find?_fields hbind, NameMap.find?_insert, find?_fields h, get?, bind, NameMap.find?_insert, get?]
  split <;> rfl

theorem ordered_unbind (h : NameMap.Ordered p.resolvers) (name : Bytes) :
    NameMap.Ordered (p.unbind name).resolvers := by
  unfold unbind
  split
  · exact h.erase name
  · exact h

theorem get?_unbind (h : NameMap.Ordered p.resolvers) (name other : Bytes) :
    (p.unbind name).get? other = if name = other then none else p.get? other := by
  unfold unbind
  split
  · rw [get?, NameMap.find?_erase h, get?]
    split <;> rfl
  · next hhas =>
    split
    · next heq =>
      have hnone : NameMap.find? p.resolvers other = none := by
        simpa [has, NameMap.contains, heq] using hhas
      rw [get?, hnone]
      rfl
    · rfl

/-- Unbinding a name and resolving all fields commute. -/
theorem fields_unbind (h : NameMap.Ordered p.resolvers) (name : Bytes) :
    (p.unbind name).fields = NameMap.erase p.fields name := by
  have hunbind := ordered_unbind h name
  have hfields := Checker.ordered_fields h
  refine NameMap.eq_of_find? (Checker.ordered_fields hunbind) (hfields.erase name) fun other => ?_
  rw [find?_fields hunbind, get?_unbind h, NameMap.find?_erase hfields, find?_fields h]

/-- A provider is edited in place or loses its cell. -/
theorem unbind_cases (p : Provider Ty) (name : Bytes) : p.unbind name = p ∨ (p.unbind name).cell = none := by
  unfold unbind
  split
  · exact .inr rfl
  · exact .inl rfl

theorem expandable_unbind (p : Provider Ty) (name : Bytes) : (p.unbind name).expandable = p.expandable := by
  unfold unbind
  split <;> rfl

theorem settle_of_some {cell : Nat} (h : p.cell = some cell) (next : Nat) : p.settle next = (p, next) := by
  rw [settle, h]

theorem settle_of_none (h : p.cell = none) (next : Nat) :
    p.settle next = ({ p with cell := some next }, next + 1) := by
  rw [settle, h]

end Provider

namespace Ty

open Checker (Expands audited_aggregate)

variable {t x : Ty}

/-! ## Cells -/

/-- Every provider in the type has a cell. -/
def Celled (t : Ty) : Prop := t.Everywhere fun u => (u.provider?.all fun p => p.cell.isSome) = true

theorem settleFields_eq_self {fields : List (Bytes × Ty)} (h : ∀ e ∈ fields, ∀ next, e.2.settle next = (e.2, next))
    (next : Nat) : settleFields fields next = (fields, next) := by
  induction fields with
  | nil => rfl
  | cons e fields ih =>
    obtain ⟨hfirst, hrest⟩ := List.forall_mem_cons.1 h
    rw [settleFields, hfirst next]
    dsimp only
    rw [ih hrest]

theorem settleResolvers_eq_self {resolvers : List (Bytes × Resolver Ty)}
    (h : ∀ e ∈ resolvers, ∀ t ∈ e.2.result?, ∀ next, t.settle next = (t, next)) (next : Nat) :
    settleResolvers resolvers next = (resolvers, next) := by
  induction resolvers with
  | nil => rfl
  | cons e resolvers ih =>
    obtain ⟨hfirst, hrest⟩ := List.forall_mem_cons.1 h
    obtain ⟨name, result | t⟩ := e
    · cases result with
      | none =>
        rw [settleResolvers]
        dsimp only
        rw [ih hrest]
      | some t =>
        rw [settleResolvers, hfirst t rfl next]
        dsimp only
        rw [ih hrest]
    · rw [settleResolvers, hfirst t rfl next]
      dsimp only
      rw [ih hrest]

/-- If all types below a lazy type have their cells, only its own provider may get one. -/
theorem settle_lazy {isTable optional : Bool} {p : Provider Ty} {token : Option Token} {sources : NameSet}
    (h : ∀ e ∈ p.fields, ∀ next, e.2.settle next = (e.2, next)) (next : Nat) :
    (Ty.node (.lazy isTable optional (some p)) token sources).settle next =
      (.node (.lazy isTable optional (some (p.settle next).1)) token sources, (p.settle next).2) := by
  have hresolvers : ∀ next, settleResolvers p.resolvers next = (p.resolvers, next) :=
    settleResolvers_eq_self fun e he t ht => h (e.1, t) (Provider.mem_fields he ht)
  obtain ⟨identity, expandable, resolvers, cell⟩ := p
  rw [Ty.settle, hresolvers]

/-- Where every provider has a cell there is nothing to settle. -/
theorem settle_eq_self (h : t.Celled) (next : Nat) : t.settle next = (t, next) := by
  induction t using Ty.induction generalizing next with
  | step t ih =>
    have hparts : ∀ part ∈ t.parts, ∀ next, part.settle next = (part, next) :=
      fun part hpart => ih part hpart (h.part hpart)
    have hcell := h.here
    obtain ⟨form, token, sources⟩ := t
    cases form with
    | leaf | enum => rfl
    | choices | aggregate =>
      rw [Ty.settle, settleFields_eq_self fun e he => hparts e.2 (List.mem_map_of_mem he)]
    | lazy isTable optional provider =>
      cases provider with
      | none => rfl
      | some p =>
        rw [settle_lazy fun e he => hparts e.2 (List.mem_map_of_mem he)]
        obtain ⟨cell, hp⟩ : ∃ cell, p.cell = some cell := by
          simpa [provider?, Ty.form, Option.isSome_iff_exists] using hcell
        rw [Provider.settle_of_some hp]

/-! ## Edits -/

/-- A field is bound to a type in which every provider has a cell. -/
def Edit.Celled : Edit → Prop
  | .add _ field => field.Celled
  | _ => True

theorem celled_aggregate_iff {shape : Shape} {optional : Bool} {fields : List (Bytes × Ty)} {token : Option Token}
    {sources : NameSet} :
    (Ty.node (.aggregate shape optional fields) token sources).Celled ↔ ∀ e ∈ fields, e.2.Celled := by
  constructor
  · intro h e he
    exact h.part (List.mem_map_of_mem he)
  · intro h
    refine .intro rfl fun part hpart => ?_
    obtain ⟨e, he, rfl⟩ := List.mem_map.1 hpart
    exact h e he

/-- An edit leads from a lazy type and its expansion to another such pair. The edited type has the provider of the old
one, or one without a cell. -/
theorem exists_edit_expands (audit : Bool) (h : Expands t x) (hc : x.Celled) {edit : Edit} (he : edit.Celled) :
    ∃ t' x', edit.run audit t = .ok t' ∧ edit.run audit x = .ok x' ∧ Expands t' x' ∧ x'.Celled ∧
      (t'.provider? = t.provider? ∨ ∀ p ∈ t'.provider?, p.cell = none) := by
  obtain @⟨p, isTable, optional, token, sources, hx, ho⟩ := h
  rw [celled_aggregate_iff] at hc
  have hsame : ∀ {shape optional token sources}, (Ty.node (.aggregate shape optional p.fields) token sources).Celled :=
    celled_aggregate_iff.2 hc
  cases edit with
  | add name field =>
    refine ⟨_, _, audited_lazy _ _ _ _ _ _, audited_aggregate _ _ _ _ _ _, ?_, ?_, .inr ?_⟩
    · rw [← Provider.fields_bind ho]
      exact .intro _ _ _ _ hx (ho.insert name _)
    · refine celled_aggregate_iff.2 fun e hmem => ?_
      rcases NameMap.mem_insert hmem with rfl | hmem
      · exact he
      · exact hc e hmem
    · rintro q ⟨⟩
      rfl
  | drop name =>
    refine ⟨_, _, audited_lazy _ _ _ _ _ _, audited_aggregate _ _ _ _ _ _, ?_, ?_, ?_⟩
    · rw [← Provider.fields_unbind ho]
      exact .intro _ _ _ _ (p.expandable_unbind name ▸ hx) (Provider.ordered_unbind ho name)
    · exact celled_aggregate_iff.2 fun e hmem => hc e (NameMap.mem_of_mem_erase hmem)
    · rcases p.unbind_cases name with hsame | hnone
      · exact .inl (congrArg some hsame)
      · refine .inr ?_
        rintro q ⟨⟩
        exact hnone
  | toRecord entity =>
    refine ⟨_, _, ?_, ?_, .intro false optional (entity.or token) sources hx ho, hsame, .inl rfl⟩
    · rw [Edit.run, toRecord, replaceToken_node, audited_lazy]
    · cases isTable <;> simp [Edit.run, toRecord, replaceToken_node, audited_aggregate]
  | toTable entity =>
    refine ⟨_, _, ?_, ?_, .intro true optional (entity.or token) sources hx ho, hsame, .inl rfl⟩
    · rw [Edit.run, toTable, replaceToken_node, audited_lazy]
    · simp [Edit.run, toTable, replaceToken_node, audited_aggregate]
  | withOptional flag =>
    refine ⟨_, _, ?_, ?_, .intro isTable flag token sources hx ho, hsame, .inl rfl⟩
    · rw [Edit.run, withOptional]
      split
      · next hold => rw [hold]
      · rw [audited_lazy]
    · rw [Edit.run, withOptional]
      split
      · next hold => rw [hold]
      · rw [audited_aggregate]
  | withEntity entity =>
    refine ⟨_, _, ?_, ?_, .intro isTable optional entity sources hx ho, hsame, .inl rfl⟩
    · rw [Edit.run, withEntity, if_pos (by cases isTable <;> rfl), withToken, audited_lazy]
    · rw [Edit.run, withEntity, if_pos (by cases isTable <;> rfl), withToken, audited_aggregate]
  | withSources more => exact ⟨_, _, rfl, rfl, .intro isTable optional token _ hx ho, hsame, .inl rfl⟩

/-- Settling a lazy type gives its provider a cell if it has none, and changes nothing else. -/
theorem exists_settle_expands (h : Expands t x) (hc : x.Celled) (next : Nat) :
    ∃ p, t.provider? = some p ∧ (t.settle next).1.provider? = some (p.settle next).1 ∧
      (t.settle next).2 = (p.settle next).2 ∧ Expands (t.settle next).1 x := by
  obtain @⟨p, isTable, optional, token, sources, hx, ho⟩ := h
  rw [celled_aggregate_iff] at hc
  rw [settle_lazy fun e he => settle_eq_self (hc e he)]
  refine ⟨p, rfl, rfl, rfl, ?_⟩
  cases hcell : p.cell with
  | some cell =>
    rw [Provider.settle_of_some hcell]
    exact .intro isTable optional token sources hx ho
  | none =>
    rw [Provider.settle_of_none hcell]
    exact .intro (p := { p with cell := some next }) isTable optional token sources hx ho

end Ty

/-! ## Sessions -/

/-- The versions of a type, with what is remembered of their providers and the next free cell. -/
structure Session where
  latest : Ty
  /-- The versions before the latest, the last one first. -/
  earlier : List Ty
  memo : Memo
  next : Nat

namespace Session

open Checker (Expands)
open Ty

/-- What is done to the versions of a type. Versions are counted from the latest one. -/
inductive Action where
  /-- Asks a version for a field. -/
  | look (version : Nat) (name : Bytes)
  /-- Expands a version. -/
  | expand (version : Nat)
  /-- Makes a new version of the latest one. -/
  | edit (change : Edit)

/-- Edits bring in only types in which every provider has a cell. -/
def Action.Celled : Action → Prop
  | .edit change => change.Celled
  | _ => True

/-- All versions, the latest first. -/
def versions (s : Session) : List Ty := s.latest :: s.earlier

/-- Remembers what was demanded of a version, if there is one. -/
def demand (s : Session) (version : Nat) (demands : Ty → List Demand) : Session :=
  match s.versions[version]? with
  | some t => { s with memo := (s.memo.replay (demands t)).1 }
  | none => s

/-- Does one thing. An edited provider gets a cell of its own. -/
def step (audit : Bool) (s : Session) : Action → Except Fault Session
  | .look version name => .ok (s.demand version fun t => (t.field name).demands)
  | .expand version => .ok (s.demand version fun t => (t.expand audit).demands)
  | .edit change => do
    let t ← change.run audit s.latest
    return ⟨(t.settle s.next).1, s.versions, s.memo, (t.settle s.next).2⟩

/-- Does one thing after another. -/
def run (audit : Bool) (s : Session) (actions : List Action) : Except Fault Session := actions.foldlM (step audit) s

/-- The memo remembers nothing but what the providers of the versions resolve, each behind its own cell. -/
def Consistent (s : Session) : Prop :=
  ∃ behind, s.memo.Honest behind s.next ∧ ∀ t ∈ s.versions, t.LivesIn behind s.next

variable {s y : Session}

/-! ## What is remembered -/

theorem versions_demand (s : Session) (version : Nat) (demands : Ty → List Demand) :
    (s.demand version demands).versions = s.versions := by
  unfold demand
  split <;> rfl

/-- Demands of a version are remembered behind its cell. -/
theorem Consistent.demand (h : s.Consistent) (version : Nat) {demands : Ty → List Demand}
    (hd : ∀ t, ∀ d ∈ demands t, t.provider? = some d.provider) : (s.demand version demands).Consistent := by
  obtain ⟨behind, hm, hlive⟩ := h
  unfold Session.demand
  split
  · next t ht =>
    have hversion := hlive t (List.mem_of_getElem? ht)
    exact ⟨behind, hm.replay fun d hdt => hversion d.provider (hd t d hdt), hlive⟩
  · exact ⟨behind, hm, hlive⟩

theorem provider?_of_mem_field (name : Bytes) (t : Ty) :
    ∀ d ∈ (t.field name).demands, t.provider? = some d.provider := by
  intro d hd
  rw [Ty.field, Ty.demand] at hd
  split at hd
  · next p hp =>
    obtain rfl := List.mem_singleton.1 hd
    exact hp
  · cases hd

theorem demands_expand (audit : Bool) (t : Ty) : (t.expand audit).demands = t.expansionDemands := by
  have hnote : ∀ f : Unit → Run (Option Ty), (f ()).demands = [] →
      (Run.note t.expansionDemands >>= f).demands = t.expansionDemands := by
    intro f hf
    change t.expansionDemands ++ (f ()).demands = _
    rw [hf, List.append_nil]
  refine hnote _ ?_
  split
  · rfl
  · rfl
  · next expanded _ _ => cases expanded.audited audit <;> rfl

theorem provider?_of_mem_expand (audit : Bool) (t : Ty) :
    ∀ d ∈ (t.expand audit).demands, t.provider? = some d.provider := by
  intro d hd
  rw [demands_expand, expansionDemands] at hd
  split at hd
  · next p hp =>
    split at hd
    · obtain ⟨name, -, rfl⟩ := List.mem_map.1 hd
      exact hp
    · cases hd
  · cases hd

/-- A version with the provider of the latest one shares its cell. -/
theorem Consistent.share (h : s.Consistent) {t : Ty} (ht : t.provider? = s.latest.provider?) :
    (Session.mk t s.versions s.memo s.next).Consistent := by
  obtain ⟨behind, hm, hlive⟩ := h
  refine ⟨behind, hm, List.forall_mem_cons.2 ⟨fun p hp => ?_, hlive⟩⟩
  exact hlive s.latest List.mem_cons_self p (ht ▸ hp)

/-- A version with a new provider gets a cell that nothing is remembered behind. -/
theorem Consistent.occupy (h : s.Consistent) {t : Ty} {p : Provider Ty} (hp : p.cell = none)
    (ht : t.provider? = some (p.settle s.next).1) :
    (Session.mk t s.versions s.memo (p.settle s.next).2).Consistent := by
  obtain ⟨behind, hm, hlive⟩ := h
  have hnext : (p.settle s.next).2 = s.next + 1 := by rw [Provider.settle_of_none hp]
  refine ⟨Function.update behind s.next p.get?, ?_, List.forall_mem_cons.2 ⟨fun q hq => ?_, fun u hu q hq => ?_⟩⟩
  · rw [hnext]
    exact hm.update p.get?
  · obtain rfl : (p.settle s.next).1 = q := Option.some.inj (ht.symm.trans hq)
    exact Memo.livesIn_settle hp
  · rw [hnext]
    exact Memo.livesIn_update (hlive u hu q hq) p.get?

/-! ## Runs -/

/-- The versions of one session are lazy and those of the other their expansions. -/
def Mirrors (s y : Session) : Prop :=
  List.Forall₂ (fun t x => Expands t x ∧ x.Celled) s.versions y.versions ∧ s.Consistent

/-- What is done to both sessions keeps them so. -/
theorem Mirrors.step (audit : Bool) (h : Mirrors s y) {action : Action} (ha : action.Celled) :
    ∃ s' y', s.step audit action = .ok s' ∧ y.step audit action = .ok y' ∧ Mirrors s' y' := by
  obtain ⟨hversions, hs⟩ := h
  have hdemand : ∀ version demands, (∀ t, ∀ d ∈ demands t, t.provider? = some d.provider) →
      Mirrors (s.demand version demands) (y.demand version demands) := by
    intro version demands hd
    refine ⟨?_, hs.demand version hd⟩
    rw [versions_demand, versions_demand]
    exact hversions
  cases action with
  | look version name => exact ⟨_, _, rfl, rfl, hdemand version _ (provider?_of_mem_field name)⟩
  | expand version => exact ⟨_, _, rfl, rfl, hdemand version _ (provider?_of_mem_expand audit)⟩
  | edit change =>
    obtain ⟨hlatest, hcelled⟩ := (List.forall₂_cons.1 hversions).1
    obtain ⟨t, x, ht, hx, hexpands, hcelled', hcell⟩ := exists_edit_expands audit hlatest hcelled ha
    obtain ⟨p, hp, hsettled, hnext, hsettles⟩ := exists_settle_expands hexpands hcelled' s.next
    refine ⟨_, _, bind_eq_ok_iff.2 ⟨t, ht, rfl⟩, bind_eq_ok_iff.2 ⟨x, hx, rfl⟩, .cons ?_ hversions, ?_⟩
    · rw [settle_eq_self hcelled']
      exact ⟨hsettles, hcelled'⟩
    · rw [hnext]
      -- a provider with a cell is the one of the latest version, since edits leave their own without
      cases hc : p.cell with
      | none => exact hs.occupy hc hsettled
      | some cell =>
        have hsame : t.provider? = s.latest.provider? := by
          refine hcell.resolve_right fun hnone => ?_
          rw [hnone p hp] at hc
          cases hc
        rw [Provider.settle_of_some hc] at hsettled ⊢
        exact hs.share (hsettled.trans (hp.symm.trans hsame))

theorem Mirrors.run (audit : Bool) (h : Mirrors s y) {actions : List Action} (ha : ∀ a ∈ actions, a.Celled) :
    ∃ s' y', s.run audit actions = .ok s' ∧ y.run audit actions = .ok y' ∧ Mirrors s' y' := by
  induction actions generalizing s y with
  | nil => exact ⟨s, y, rfl, rfl, h⟩
  | cons action actions ih =>
    obtain ⟨hfirst, hrest⟩ := List.forall_mem_cons.1 ha
    obtain ⟨s₁, y₁, hs₁, hy₁, h₁⟩ := h.step audit hfirst
    obtain ⟨s₂, y₂, hs₂, hy₂, h₂⟩ := ih h₁ hrest
    refine ⟨s₂, y₂, ?_, ?_, h₂⟩
    · rw [Session.run, List.foldlM_cons]
      exact bind_eq_ok_iff.2 ⟨s₁, hs₁, hs₂⟩
    · rw [Session.run, List.foldlM_cons]
      exact bind_eq_ok_iff.2 ⟨y₁, hy₁, hy₂⟩

/-- The type answers as the other one does, whether or not the memo is asked, and expands to it. -/
structure Simulates (audit : Bool) (m : Memo) (t x : Ty) : Prop where
  field : ∀ name, (t.field name).outcome = .ok (x.field? name)
  remembered : ∀ name, m.field? t name = x.field? name
  expand : (t.expand audit).outcome = .ok (some x)
  expansion : m.expansion? t = some x

/-- A lazy type simulates its expansion, as long as the memo is honest. -/
theorem simulates_of_expands (audit : Bool) {behind : Nat → Bytes → Option Ty} {next : Nat} {m : Memo} {t x : Ty}
    (hm : m.Honest behind next) (ht : t.LivesIn behind next) (h : Expands t x) : Simulates audit m t x := by
  refine ⟨fun name => ?_, fun name => ?_, ?_, ?_⟩
  · rw [h.field?_eq, Ty.field]
  · rw [h.field?_eq, hm.field?_eq ht]
  · rw [Checker.outcome_expand, h.expansion?_eq]
  · rw [hm.expansion?_eq ht h.ordered, h.expansion?_eq]

/-- **A lazy type simulates its expansion under edits.** Whatever is asked and edited in between, the same edits succeed
on both, and every version of the type answers as the version of the expansion does and expands to it. -/
theorem exists_run_expands (audit : Bool) {t : Ty} {p : Provider Ty} {m : Memo} {next : Nat}
    (hp : t.provider? = some p) (hx : p.expandable = true) (ho : t.form.Ordered) (hc : t.Celled)
    (hm : (Session.mk t [] m next).Consistent) {actions : List Action} (ha : ∀ a ∈ actions, a.Celled) :
    ∃ x s y, (t.expand audit).outcome = .ok (some x) ∧ run audit ⟨t, [], m, next⟩ actions = .ok s ∧
      run audit ⟨x, [], Memo.empty, 0⟩ actions = .ok y ∧
      List.Forall₂ (Simulates audit s.memo) s.versions y.versions := by
  obtain ⟨x, hexpands⟩ := Checker.exists_expands hp hx ho
  have hcelled : x.Celled := by
    obtain ⟨isTable, optional, token, sources, -, -⟩ := hexpands
    exact celled_aggregate_iff.2 fun e he => hc.part (List.mem_map_of_mem he)
  obtain ⟨s, y, hs, hy, hversions, behind, hhonest, hlive⟩ :=
    Mirrors.run (s := ⟨t, [], m, next⟩) (y := ⟨x, [], Memo.empty, 0⟩) audit ⟨.cons ⟨hexpands, hcelled⟩ .nil, hm⟩ ha
  refine ⟨x, s, y, ?_, hs, hy, List.forall₂_iff_zip.2 ⟨hversions.length_eq, fun {u v} huv => ?_⟩⟩
  · rw [Checker.outcome_expand, hexpands.expansion?_eq]
  · have hexpands' := ((List.forall₂_iff_zip.1 hversions).2 huv).1
    exact simulates_of_expands audit hhonest (hlive u (List.of_mem_zip huv).1) hexpands'

/-- A lazy record that has a number under one name and finds nothing under another one. -/
def halfResolved : Ty :=
  .ofForm (.lazy false false
    (some ⟨Bytes.ofString "p", true,
      [(Bytes.ofString "a", .host (some (.ofForm (bareForm .number)))), (Bytes.ofString "b", .host none)], some 0⟩))

/-- The number was resolved, is replaced by a text, and is asked for in both versions. -/
def replacing : List Action :=
  [.edit (.add (Bytes.ofString "a") (.ofForm (bareForm .string))), .look 0 (Bytes.ofString "a"),
   .look 1 (Bytes.ofString "a"), .edit (.drop (Bytes.ofString "b")),
    .edit (.toTable none), .expand 0]

theorem exists_run_expands_halfResolved :
    (Session.mk halfResolved [] ⟨[(0, Bytes.ofString "a", .ofForm (bareForm .number))]⟩ 1).Consistent ∧
      ∃ x s y, (halfResolved.expand true).outcome = .ok (some x) ∧
        run true ⟨halfResolved, [], ⟨[(0, Bytes.ofString "a", .ofForm (bareForm .number))]⟩, 1⟩ replacing = .ok s ∧
        run true ⟨x, [], Memo.empty, 0⟩ replacing = .ok y ∧
        List.Forall₂ (Simulates true s.memo) s.versions y.versions := by
  have hm : (Session.mk halfResolved [] ⟨[(0, Bytes.ofString "a", .ofForm (bareForm .number))]⟩ 1).Consistent := by
    refine ⟨fun _ => halfResolved.field?, List.forall_mem_singleton.2 ⟨Nat.one_pos, rfl⟩,
      List.forall_mem_singleton.2 ?_⟩
    rintro p ⟨⟩ cell ⟨⟩
    exact ⟨Nat.one_pos, rfl⟩
  have ha : ∀ a ∈ replacing, a.Celled := by
    refine List.forall_mem_cons.2 ⟨?_, by simp [Action.Celled, Edit.Celled]⟩
    exact .intro rfl (List.forall_mem_nil _)
  have hc : halfResolved.Celled := .intro rfl (List.forall_mem_singleton.2 (.intro rfl (List.forall_mem_nil _)))
  exact ⟨hm, exists_run_expands true rfl rfl (by decide) hc hm ha⟩

end Session

end FormulaTypes
