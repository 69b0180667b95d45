import FormulaTypes.Proofs.Resolving
import FormulaTypes.Proofs.Ty.LazyEdits

/-!
# Pools of providers

A pool holds the providers that were made from a first one by binding and unbinding names, with one memo for all of
them. A new instance gets a cell of its own and the others stay as they are, so that a pool remembers nothing but what
the instance in each cell resolves (`Consistent.after`). Hence a pool answers as providers without a memo do
(`Consistent.answers_eq`), what it answers once it answers ever after (`Consistent.answer_run`), and its resolvers run
as those of one instance do (`run_resolves`). Actions that demand nothing have no need to: what they answer does not
depend on what the resolvers give (`answer_of_isSilent`).
-/

namespace FormulaTypes

/-- The record on demand that a provider stands behind. -/
def Provider.record (p : Provider Ty) : Ty := .ofForm (.lazy false false (some p))

/-- The providers that were made so far, with what is remembered of them and the next free cell. -/
structure Pool where
  providers : List (Provider Ty)
  memo : Memo
  next : Nat

namespace Pool

/-- What is done to the providers, which are counted in the order in which they were made. -/
inductive Action where
  | get (i : Nat) (name : Bytes)
  | expand (i : Nat)
  | bind (i : Nat) (name : Bytes) (r : Resolver Ty)
  | unbind (i : Nat) (name : Bytes)
  | names (i : Nat)
  | size (i : Nat)
  | has (i : Nat) (name : Bytes)
  | sameShape (i j : Nat)

/-- What is answered. -/
inductive Answer where
  | type (found : Option Ty)
  | fields (found : Option (NameMap Ty))
  | names (names : List Bytes)
  | size (count : Nat)
  | holds (test : Bool)
  /-- There is a further provider. -/
  | made

namespace Action

/-- What is answered by some providers, by how one of them gets a field and all fields; nothing if there is no such
provider. -/
def answer (get : Provider Ty → Bytes → Option Ty) (expand : Provider Ty → Option (NameMap Ty))
    (providers : List (Provider Ty)) : Action → Option Answer
  | .get i name => providers[i]?.map fun p => .type (get p name)
  | .expand i => providers[i]?.map fun p => .fields (expand p)
  | .bind i _ _ | .unbind i _ => providers[i]?.map fun _ => .made
  | .names i => providers[i]?.map fun p => .names p.names
  | .size i => providers[i]?.map fun p => .size p.names.length
  | .has i name => providers[i]?.map fun p => .holds (p.has name)
  | .sameShape i j => providers[i]?.bind fun p => providers[j]?.map fun q => .holds (p.sameShape q)

/-- The provider that is made. -/
def makes (providers : List (Provider Ty)) : Action → Option (Provider Ty)
  | .bind i name r => providers[i]?.map (·.bind name r)
  | .unbind i name => providers[i]?.map (·.unbind name)
  | _ => none

/-- The demands of an action. -/
def demands (providers : List (Provider Ty)) : Action → List Demand
  | .get i name => providers[i]?.toList.flatMap fun p => p.record.demand name
  | .expand i => providers[i]?.toList.flatMap fun p => p.record.expansionDemands
  | .bind _ _ _ | .unbind _ _ | .names _ | .size _ | .has _ _ | .sameShape _ _ => []

/-- Only a field that is asked for, and an expansion that is allowed, have to resolve something. -/
def IsSilent (providers : List (Provider Ty)) : Action → Prop
  | .get _ _ => False
  | .expand i => ∀ p, providers[i]? = some p → p.expandable = false
  | _ => True

end Action

/-- All fields of a provider, asked of the memo one after another, if that is allowed. -/
def expand? (m : Memo) (p : Provider Ty) : Option (NameMap Ty) :=
  if p.expandable then some (m.fields p p.names) else none

/-- What a pool answers: the memo is asked first. -/
def answer (s : Pool) (a : Action) : Option Answer :=
  a.answer (fun p name => (s.memo.get p name).1) (expand? s.memo) s.providers

/-- The pool after an action. A provider that is made gets a cell of its own. -/
def after (s : Pool) (a : Action) : Pool :=
  let memo := (s.memo.replay (a.demands s.providers)).1
  match a.makes s.providers with
  | some p => ⟨s.providers ++ [(p.settle s.next).1], memo, (p.settle s.next).2⟩
  | none => { s with memo := memo }

/-- The pool after some actions. -/
def run (s : Pool) (actions : List Action) : Pool := actions.foldl after s

/-- What comes of some actions, one after another, each in the pool that those before it left. -/
def along {β : Type} (each : Pool → Action → List β) (s : Pool) : List Action → List β
  | [] => []
  | a :: rest => each s a ++ along each (s.after a) rest

/-- What is answered to some actions. -/
def answers : Pool → List Action → List (Option Answer) := along fun s a => [s.answer a]

/-- The demands of some actions. -/
def demands : Pool → List Action → List Demand := along fun s a => a.demands s.providers

/-- Those of the demands that run a resolver. -/
def resolving : Pool → List Action → List Demand := along fun s a => s.memo.resolving (a.demands s.providers)

/-- The calls that the host sees. -/
def calls : Pool → List Action → List Call := along fun s a => (s.memo.replay (a.demands s.providers)).2

/-- What providers without a memo answer to some actions. -/
def plainAnswers (providers : List (Provider Ty)) : List Action → List (Option Answer)
  | [] => []
  | a :: rest =>
    a.answer Provider.get? Provider.expand? providers ::
      plainAnswers (providers ++ (a.makes providers).toList) rest

/-- The pool of one new provider. -/
def start (p : Provider Ty) : Pool := ⟨[{ p with cell := some 0 }], .empty, 1⟩

/-- Every provider lives in a cell that no other one has, and the memo has nothing but what they resolve. -/
structure Consistent (s : Pool) : Prop where
  celled : ∀ p ∈ s.providers, ∃ cell < s.next, p.cell = some cell
  unique : ∀ p ∈ s.providers, ∀ q ∈ s.providers, p.cell = q.cell → p = q
  ordered : ∀ p ∈ s.providers, NameMap.Ordered p.resolvers
  honest : ∃ behind, s.memo.Honest behind s.next ∧ ∀ p ∈ s.providers, p.LivesIn behind s.next

variable {s : Pool} {a : Action} {p : Provider Ty}

theorem consistent_start (h : NameMap.Ordered p.resolvers) : (start p).Consistent where
  celled := List.forall_mem_singleton.2 ⟨0, Nat.one_pos, rfl⟩
  unique := List.forall_mem_singleton.2 (List.forall_mem_singleton.2 fun _ => rfl)
  ordered := List.forall_mem_singleton.2 h
  honest := by
    refine ⟨fun _ => p.get?, List.forall_mem_nil _, List.forall_mem_singleton.2 ?_⟩
    rintro cell ⟨⟩
    exact ⟨Nat.one_pos, rfl⟩

/-! ## One action -/

/-- Demands are made of the providers of the pool. -/
theorem provider_mem_of_mem_demands {providers : List (Provider Ty)} {d : Demand} (h : d ∈ a.demands providers) :
    d.provider ∈ providers := by
  have hof : ∀ (i : Nat) (f : Provider Ty → List Demand), (∀ p, ∀ d ∈ f p, d.provider = p) →
      d ∈ providers[i]?.toList.flatMap f → d.provider ∈ providers := by
    intro i f hf hd
    obtain ⟨p, hp, hdp⟩ := List.mem_flatMap.1 hd
    rw [hf p d hdp]
    exact List.mem_of_getElem? (Option.mem_toList.1 hp)
  cases a with
  | get i name =>
    refine hof i _ (fun p d hd => ?_) h
    rw [List.mem_singleton.1 hd]
  | expand i =>
    refine hof i _ (fun p d hd => ?_) h
    change d ∈ if p.expandable then p.names.map (⟨p, ·⟩) else [] at hd
    split at hd
    · obtain ⟨name, -, rfl⟩ := List.mem_map.1 hd
      rfl
    · cases hd
  | bind | unbind | names | size | has | sameShape => cases h

/-- A provider that is made is one of the pool or has no cell yet, and is in order if those of the pool are. -/
theorem makes_cases {providers : List (Provider Ty)} (h : a.makes providers = some p) :
    (p ∈ providers ∨ p.cell = none) ∧
      ((∀ q ∈ providers, NameMap.Ordered q.resolvers) → NameMap.Ordered p.resolvers) := by
  cases a with
  | bind i name r =>
    obtain ⟨q, hq, rfl⟩ := Option.map_eq_some_iff.1 h
    exact ⟨.inr rfl, fun ho => (ho q (List.mem_of_getElem? hq)).insert name r⟩
  | unbind i name =>
    obtain ⟨q, hq, rfl⟩ := Option.map_eq_some_iff.1 h
    have hmem := List.mem_of_getElem? hq
    refine ⟨?_, fun ho => Provider.ordered_unbind (ho q hmem) name⟩
    rcases q.unbind_cases name with hsame | hnone
    · rw [hsame]
      exact .inl hmem
    · exact .inr hnone
  | get | expand | names | size | has | sameShape => cases h

/-- A further handle of an instance. -/
theorem Consistent.share (hs : s.Consistent) (hp : p ∈ s.providers) :
    (Pool.mk (s.providers ++ [p]) s.memo s.next).Consistent := by
  have hmem : ∀ q, q ∈ s.providers ++ [p] → q ∈ s.providers := by
    intro q hq
    rcases List.mem_append.1 hq with hq | hq
    · exact hq
    · rwa [List.mem_singleton.1 hq]
  obtain ⟨behind, hm, hlive⟩ := hs.honest
  exact ⟨fun q hq => hs.celled q (hmem q hq), fun q hq r hr => hs.unique q (hmem q hq) r (hmem r hr),
    fun q hq => hs.ordered q (hmem q hq), behind, hm, fun q hq => hlive q (hmem q hq)⟩

/-- A new instance gets a cell that nothing is remembered behind. -/
theorem Consistent.occupy (hs : s.Consistent) (hp : p.cell = none) (ho : NameMap.Ordered p.resolvers) :
    (Pool.mk (s.providers ++ [(p.settle s.next).1]) s.memo (p.settle s.next).2).Consistent := by
  obtain ⟨behind, hm, hlive⟩ := hs.honest
  have hnew : (p.settle s.next).1.LivesIn (Function.update behind s.next p.get?) (p.settle s.next).2 :=
    Memo.livesIn_settle hp
  rw [Provider.settle_of_none hp] at hnew ⊢
  have hother : ∀ q ∈ s.providers, q.cell ≠ some s.next := by
    intro q hq heq
    obtain ⟨cell, hlt, hcell⟩ := hs.celled q hq
    rw [hcell] at heq
    cases heq
    exact Nat.lt_irrefl _ hlt
  constructor
  · refine List.forall_mem_append.2 ⟨fun q hq => ?_, List.forall_mem_singleton.2 ⟨_, Nat.lt_succ_self _, rfl⟩⟩
    obtain ⟨cell, hlt, hcell⟩ := hs.celled q hq
    exact ⟨cell, Nat.lt_succ_of_lt hlt, hcell⟩
  · refine List.forall_mem_append.2 ⟨fun q hq => ?_, List.forall_mem_singleton.2 ?_⟩
    · refine List.forall_mem_append.2 ⟨hs.unique q hq, List.forall_mem_singleton.2 fun h => ?_⟩
      exact absurd h (hother q hq)
    · refine List.forall_mem_append.2 ⟨fun r hr h => ?_, List.forall_mem_singleton.2 fun _ => rfl⟩
      exact absurd h.symm (hother r hr)
  · exact List.forall_mem_append.2 ⟨hs.ordered, List.forall_mem_singleton.2 ho⟩
  · refine ⟨Function.update behind s.next p.get?, hm.update p.get?, List.forall_mem_append.2 ⟨fun q hq => ?_, ?_⟩⟩
    · exact Memo.livesIn_update (hlive q hq) p.get?
    · exact List.forall_mem_singleton.2 hnew

/-- Demands of the providers are remembered behind their cells. -/
theorem Consistent.replay (hs : s.Consistent) (a : Action) :
    { s with memo := (s.memo.replay (a.demands s.providers)).1 : Pool }.Consistent := by
  obtain ⟨behind, hm, hlive⟩ := hs.honest
  exact ⟨hs.celled, hs.unique, hs.ordered, behind,
    hm.replay fun d hd => hlive d.provider (provider_mem_of_mem_demands hd), hlive⟩

/-- Every action leaves a pool consistent. -/
theorem Consistent.after (hs : s.Consistent) (a : Action) : (s.after a).Consistent := by
  have hdemanded := hs.replay a
  unfold Pool.after
  cases hmade : a.makes s.providers with
  | none => exact hdemanded
  | some p =>
    obtain ⟨hmem | hnone, ho⟩ := makes_cases hmade
    · obtain ⟨cell, -, hcell⟩ := hs.celled p hmem
      dsimp only
      rw [Provider.settle_of_some hcell]
      exact hdemanded.share hmem
    · exact hdemanded.occupy hnone (ho hs.ordered)

/-- Actions leave the providers that are there, and at most add one. -/
theorem exists_providers_after (s : Pool) (a : Action) : ∃ more, (s.after a).providers = s.providers ++ more := by
  unfold after
  split
  · exact ⟨_, rfl⟩
  · exact ⟨[], (List.append_nil _).symm⟩

/-- What a consistent pool answers is what its providers answer without a memo. -/
theorem Consistent.answer_eq (hs : s.Consistent) (a : Action) :
    s.answer a = a.answer Provider.get? Provider.expand? s.providers := by
  obtain ⟨behind, hm, hlive⟩ := hs.honest
  have hmap : ∀ (i : Nat) (f g : Provider Ty → Answer), (∀ p ∈ s.providers, f p = g p) →
      s.providers[i]?.map f = s.providers[i]?.map g :=
    fun i f g h => Option.map_congr fun p hp => h p (List.mem_of_getElem? hp)
  cases a with
  | get i name =>
    refine hmap i _ _ fun p hp => congrArg Answer.type ?_
    exact (hm.get_cases (hlive p hp) name).1
  | expand i =>
    refine hmap i _ _ fun p hp => congrArg Answer.fields ?_
    rw [expand?, Provider.expand?, hm.fields_eq (hlive p hp), Memo.fields_eq_filterMap (hs.ordered p hp)]
  | bind | unbind | names | size | has | sameShape => rfl

/-! ## Many actions -/

theorem Consistent.run (hs : s.Consistent) (actions : List Action) : (s.run actions).Consistent := by
  induction actions generalizing s with
  | nil => exact hs
  | cons a actions ih => exact ih (hs.after a)

theorem exists_providers_run (s : Pool) (actions : List Action) :
    ∃ more, (s.run actions).providers = s.providers ++ more := by
  induction actions generalizing s with
  | nil => exact ⟨[], (List.append_nil _).symm⟩
  | cons a actions ih =>
    obtain ⟨more, hmore⟩ := exists_providers_after s a
    obtain ⟨rest, hrest⟩ := ih (s.after a)
    refine ⟨more ++ rest, ?_⟩
    rw [← List.append_assoc, ← hmore]
    exact hrest

/-- The provider without its cell. -/
def bare (p : Provider Ty) : Provider Ty := { p with cell := none }

/-- Cells make no difference to what is answered without a memo. -/
theorem answer_map_bare (a : Action) (providers : List (Provider Ty)) :
    a.answer Provider.get? Provider.expand? (providers.map bare) =
      a.answer Provider.get? Provider.expand? providers := by
  cases a with
  | sameShape i j =>
    simp only [Action.answer, List.getElem?_map, Option.map_map, Option.bind_map]
    rfl
  | get | expand | bind | unbind | names | size | has =>
    simp only [Action.answer, List.getElem?_map, Option.map_map]
    rfl

/-- Cells make no difference to what is made. -/
theorem makes_map_bare (a : Action) (providers : List (Provider Ty)) :
    (a.makes (providers.map bare)).map bare = (a.makes providers).map bare := by
  have hunbind : ∀ (p : Provider Ty) name, bare ((bare p).unbind name) = bare (p.unbind name) := by
    intro p name
    unfold Provider.unbind
    change bare (if p.has name then _ else _) = _
    split <;> rfl
  cases a with
  | bind i name r =>
    simp only [Action.makes, List.getElem?_map, Option.map_map]
    rfl
  | unbind i name =>
    simp only [Action.makes, List.getElem?_map, Option.map_map]
    exact Option.map_congr fun p _ => hunbind p name
  | get | expand | names | size | has | sameShape => rfl

theorem bare_settle (p : Provider Ty) (next : Nat) : bare (p.settle next).1 = bare p := by
  unfold Provider.settle
  split <;> rfl

/-- A consistent pool answers as providers do that are the same but for their cells and have no memo. -/
theorem Consistent.answers_eq (hs : s.Consistent) {providers : List (Provider Ty)}
    (h : s.providers.map bare = providers.map bare) (actions : List Action) :
    s.answers actions = plainAnswers providers actions := by
  induction actions generalizing s providers with
  | nil => rfl
  | cons a actions ih =>
    have hanswer : s.answer a = a.answer Provider.get? Provider.expand? providers := by
      rw [hs.answer_eq, ← answer_map_bare, h, answer_map_bare]
    have hmade : (a.makes s.providers).map bare = (a.makes providers).map bare := by
      rw [← makes_map_bare, h, makes_map_bare]
    have hafter : (s.after a).providers.map bare = (providers ++ (a.makes providers).toList).map bare := by
      rw [List.map_append, ← h, ← Option.toList_map, ← hmade]
      unfold Pool.after
      cases a.makes s.providers with
      | none => simp
      | some p => simp [bare_settle]
    exact congrArg₂ List.cons hanswer (ih (hs.after a) hafter)

theorem provider_mem_of_mem_demands_run {actions : List Action} {d : Demand} (h : d ∈ s.demands actions) :
    d.provider ∈ (s.run actions).providers := by
  induction actions generalizing s with
  | nil => cases h
  | cons a actions ih =>
    rcases List.mem_append.1 h with h | h
    · obtain ⟨more, hmore⟩ := exists_providers_run s (a :: actions)
      rw [hmore]
      exact List.mem_append_left _ (provider_mem_of_mem_demands h)
    · exact ih h

theorem memo_after (s : Pool) (a : Action) : (s.after a).memo = (s.memo.replay (a.demands s.providers)).1 := by
  unfold after
  split <;> rfl

/-- Which demands run a resolver can be told from all demands together. -/
theorem resolving_eq (s : Pool) (actions : List Action) :
    s.resolving actions = s.memo.resolving (s.demands actions) := by
  induction actions generalizing s with
  | nil => rfl
  | cons a actions ih =>
    have hrest := ih (s.after a)
    rw [memo_after] at hrest
    rw [demands, along, Memo.resolving_append]
    exact congrArg _ hrest

theorem calls_eq (s : Pool) (actions : List Action) :
    s.calls actions = (s.resolving actions).filterMap Demand.call? := by
  induction actions generalizing s with
  | nil => rfl
  | cons a actions ih =>
    rw [resolving, along, List.filterMap_append, ← Memo.calls_replay]
    exact congrArg _ (ih (s.after a))

/-- An action that is silent demands nothing. -/
theorem demands_of_isSilent {providers : List (Provider Ty)} (h : a.IsSilent providers) : a.demands providers = [] := by
  cases a with
  | get => exact h.elim
  | expand i =>
    rw [Action.demands, List.flatMap_eq_nil_iff]
    intro p hp
    change (if p.expandable then p.names.map (⟨p, ·⟩) else []) = ([] : List Demand)
    rw [h p (Option.mem_toList.1 hp)]
    rfl
  | bind | unbind | names | size | has | sameShape => rfl

/-- Two providers differ at most in what their resolvers give, and in where it is remembered. -/
structure SameOutside (p q : Provider Ty) : Prop where
  identity : p.identity = q.identity
  expandable : p.expandable = q.expandable
  names : p.names = q.names

theorem SameOutside.has_eq {p q : Provider Ty} (h : SameOutside p q) (name : Bytes) : p.has name = q.has name := by
  rw [Bool.eq_iff_iff, Provider.has, Provider.has, ← NameMap.mem_names_iff, ← NameMap.mem_names_iff]
  change name ∈ p.names ↔ name ∈ q.names
  rw [h.names]

theorem SameOutside.sameShape_eq {p p' q q' : Provider Ty} (hp : SameOutside p p') (hq : SameOutside q q') :
    p.sameShape q = p'.sameShape q' := by
  rw [Provider.sameShape, Provider.sameShape, hp.identity, hq.identity, hp.names, hq.names]

/-- The same place in two lists of providers. -/
theorem rel_getElem? {providers others : List (Provider Ty)} (h : List.Forall₂ SameOutside providers others) (i : Nat) :
    Option.Rel SameOutside providers[i]? others[i]? := by
  induction h generalizing i with
  | nil => exact .none
  | cons hfirst _ ih =>
    cases i with
    | zero => exact .some hfirst
    | succ i => exact ih i

/-- What a silent action answers does not depend on what the resolvers give. -/
theorem answer_of_isSilent {s' : Pool} (h : a.IsSilent s.providers)
    (hsame : List.Forall₂ SameOutside s.providers s'.providers) : s'.answer a = s.answer a := by
  have hmap : ∀ {i : Nat} {f g : Provider Ty → Answer},
      (∀ p q, s.providers[i]? = some p → SameOutside p q → g q = f p) →
      s'.providers[i]?.map g = s.providers[i]?.map f := by
    intro i f g hfg
    have hrel := rel_getElem? hsame i
    generalize s'.providers[i]? = y at hrel ⊢
    cases hp : s.providers[i]? with
    | none =>
      rw [hp] at hrel
      cases hrel
      rfl
    | some p =>
      rw [hp] at hrel
      cases hrel with
      | some hpq => exact congrArg some (hfg p _ hp hpq)
  cases a with
  | get => exact h.elim
  | expand i =>
    -- the expansion is denied, so that no field is asked for
    refine hmap fun p q hp hpq => congrArg Answer.fields ?_
    rw [expand?, expand?, ← hpq.expandable, h p hp]
    rfl
  | bind | unbind => exact hmap fun _ _ _ _ => rfl
  | names => exact hmap fun p q _ hpq => by rw [hpq.names]
  | size => exact hmap fun p q _ hpq => by rw [hpq.names]
  | has i name => exact hmap fun p q _ hpq => by rw [hpq.has_eq]
  | sameShape i j =>
    have hi := rel_getElem? hsame i
    have hj := rel_getElem? hsame j
    simp only [answer, Action.answer]
    generalize s.providers[i]? = x at hi ⊢
    generalize s'.providers[i]? = x' at hi ⊢
    generalize s.providers[j]? = y at hj ⊢
    generalize s'.providers[j]? = y' at hj ⊢
    cases hi with
    | none => rfl
    | some hp =>
      cases hj with
      | none => rfl
      | some hq => exact congrArg (some ∘ Answer.holds) (hp.sameShape_eq hq).symm

/-- What some providers answer they answer with others beside them. -/
theorem answer_append {get : Provider Ty → Bytes → Option Ty} {expand : Provider Ty → Option (NameMap Ty)}
    {providers : List (Provider Ty)} {x : Answer} (h : a.answer get expand providers = some x)
    (more : List (Provider Ty)) : a.answer get expand (providers ++ more) = some x := by
  have hkept : ∀ {i : Nat} {p : Provider Ty}, providers[i]? = some p → (providers ++ more)[i]? = some p := by
    intro i p hp
    rw [List.getElem?_append_left (List.getElem?_eq_some_iff.1 hp).1, hp]
  cases a with
  | sameShape i j =>
    obtain ⟨p, hp, h⟩ := Option.bind_eq_some_iff.1 h
    obtain ⟨q, hq, rfl⟩ := Option.map_eq_some_iff.1 h
    simp only [Action.answer, hkept hp, hkept hq, Option.bind_some, Option.map_some]
  | get | expand | bind | unbind | names | size | has =>
    obtain ⟨p, hp, rfl⟩ := Option.map_eq_some_iff.1 h
    simp only [Action.answer, hkept hp, Option.map_some]

/-- What a consistent pool answers once it answers ever after. -/
theorem Consistent.answer_run (hs : s.Consistent) {x : Answer} (h : s.answer a = some x) (later : List Action) :
    (s.run later).answer a = some x := by
  obtain ⟨more, hmore⟩ := exists_providers_run s later
  rw [hs.answer_eq] at h
  rw [(hs.run later).answer_eq, hmore]
  exact answer_append h more

/-- Demands of an instance are demands of one provider, whatever the handles. -/
theorem Consistent.provider_eq_of_isAt {actions : List Action} (hs : (s.run actions).Consistent) {q : Provider Ty}
    (hq : q ∈ (s.run actions).providers) {cell : Nat} (hcell : q.cell = some cell) {name : Bytes} {d : Demand}
    (hd : d ∈ s.demands actions) (hat : d.isAt cell name = true) : d.provider = q := by
  obtain ⟨hdcell, -⟩ : d.provider.cell = some cell ∧ d.field = name := by simpa [Demand.isAt] using hat
  exact hs.unique _ (provider_mem_of_mem_demands_run hd) q hq (hdcell.trans hcell.symm)

/-- **The memo is not seen, and resolvers run once.** Whatever is done to a provider and to those made from it, all
answers are those of providers without a memo. On one instance a resolver that gives a type is run once if the field is
demanded at all, and one that gives none by each demand; the host sees just these runs. An action that is silent runs
no resolver, and is answered alike whatever the resolvers give. What a provider answers it answers ever after, whatever
is made from it. -/
theorem run_resolves (p : Provider Ty) (ho : NameMap.Ordered p.resolvers) (actions : List Action) :
    (start p).answers actions = plainAnswers [p] actions ∧
    (∀ q ∈ ((start p).run actions).providers, ∀ cell, q.cell = some cell → ∀ name,
      ((q.get? name).isSome = true → ((start p).resolving actions).countP (Demand.isAt cell name) =
        min 1 (((start p).demands actions).countP (Demand.isAt cell name))) ∧
      (NameMap.find? q.resolvers name = some (.host none) →
        ((start p).resolving actions).countP (Demand.isAt cell name) =
          ((start p).demands actions).countP (Demand.isAt cell name))) ∧
    (start p).calls actions = ((start p).resolving actions).filterMap Demand.call? ∧
    (∀ a, Action.IsSilent ((start p).run actions).providers a → ((start p).run actions).resolving [a] = [] ∧
      ∀ s : Pool, List.Forall₂ SameOutside ((start p).run actions).providers s.providers →
        s.answer a = ((start p).run actions).answer a) ∧
    ∀ a x later, ((start p).run actions).answer a = some x → ((start p).run (actions ++ later)).answer a = some x := by
  have hstart := consistent_start ho
  have hrun := hstart.run actions
  have hbare : (start p).providers.map bare = [p].map bare := rfl
  refine ⟨hstart.answers_eq hbare actions, fun q hq cell hcell name => ?_, calls_eq _ _, fun a ha => ?_,
    fun a x later hx => ?_⟩
  · have hsame : ∀ d ∈ (start p).demands actions, d.isAt cell name = true → d.provider = q :=
      fun d hd hat => hrun.provider_eq_of_isAt hq hcell hd hat
    rw [resolving_eq]
    refine ⟨fun hsome => Memo.countP_resolving_of_some rfl fun d hd hat => ?_, fun hnil => ?_⟩
    · rwa [hsame d hd hat]
    · obtain ⟨behind, -, hlive⟩ := hrun.honest
      refine Memo.countP_resolving_of_none (m := .empty) (List.forall_mem_nil _)
        (fun d hd => hlive _ (provider_mem_of_mem_demands_run hd)) fun d hd hat => ?_
      rw [hsame d hd hat, Provider.has, NameMap.contains, Provider.get?, hnil]
      exact ⟨rfl, rfl⟩
  · refine ⟨?_, fun s hsame => answer_of_isSilent ha hsame⟩
    rw [resolving_eq, demands, along, demands_of_isSilent ha]
    rfl
  · rw [run, List.foldl_append]
    exact hrun.answer_run hx later

/-- A provider that has a number under one name and finds nothing under another one. -/
def numberOnly : Provider Ty :=
  ⟨Bytes.ofString "p", true,
    [(Bytes.ofString "a", .host (some (.ofForm (Ty.bareForm .number)))), (Bytes.ofString "b", .host none)], none⟩

/-- The number is asked for before and after it is replaced in a second provider. A third one is the second again, since
what is unbound is not there. -/
def replacingActions : List Action :=
  [.get 0 (Bytes.ofString "a"), .bind 0 (Bytes.ofString "a") (.bound (.ofForm (Ty.bareForm .string))),
    .get 1 (Bytes.ofString "a"), .unbind 1 (Bytes.ofString "c"), .expand 2,
    .get 0 (Bytes.ofString "b"), .names 0, .get 0 (Bytes.ofString "a"), .get 0 (Bytes.ofString "b")]

theorem run_resolves_replacingActions :
    NameMap.Ordered numberOnly.resolvers ∧
      (start numberOnly).answers replacingActions = plainAnswers [numberOnly] replacingActions ∧
      ((start numberOnly).demands replacingActions).countP (Demand.isAt 0 (Bytes.ofString "a")) = 2 ∧
      ((start numberOnly).resolving replacingActions).countP (Demand.isAt 0 (Bytes.ofString "a")) = 1 ∧
      ((start numberOnly).resolving replacingActions).countP (Demand.isAt 0 (Bytes.ofString "b")) = 2 := by
  have ho : NameMap.Ordered numberOnly.resolvers := by decide
  obtain ⟨hanswers, hcounts, -⟩ := run_resolves numberOnly ho replacingActions
  have hfirst : { numberOnly with cell := some 0 } ∈ ((start numberOnly).run replacingActions).providers := by
    obtain ⟨more, hmore⟩ := exists_providers_run (start numberOnly) replacingActions
    rw [hmore]
    exact List.mem_append_left _ List.mem_cons_self
  have hnumber : ((start numberOnly).demands replacingActions).countP (Demand.isAt 0 (Bytes.ofString "a")) = 2 := by
    decide +kernel
  have hnothing : ((start numberOnly).demands replacingActions).countP (Demand.isAt 0 (Bytes.ofString "b")) = 2 := by
    decide +kernel
  refine ⟨ho, hanswers, hnumber, ?_, ?_⟩
  · rw [(hcounts _ hfirst 0 rfl (Bytes.ofString "a")).1 rfl, hnumber]
    rfl
  · rw [(hcounts _ hfirst 0 rfl (Bytes.ofString "b")).2 rfl, hnothing]

end Pool

end FormulaTypes
