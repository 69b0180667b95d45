import FormulaTypes.Proofs.NameMap
import FormulaTypes.Run

/-!
# Outcomes of runs

What the outcome of a run over fields says of the runs at each field. A walk finds nothing if it finds nothing
anywhere (`firstAlong_eq_none_iff`), else it stops at the first finding (`firstAlong_eq_some_iff`). It ends without a
fault if it does so everywhere (`gives_firstAlong`, `gives_collectAlong`). Runs are the same, demands included, if
they are made of the same runs (`bind_congr_of_ok`, `firstAlong_congr`).

Two runs agree (`Run.Agree`) if they end in related results or in the same fault. Runs that are made alike of runs that
agree do so themselves (`agree_bind`, `agree_firstAlong`, `agree_collectAlong`).

A run follows another one (`Run.Follows`) if it has the same outcome and demands nothing but what the other one does and
some demands of its own (`follows_bind`, `follows_firstAlong`).
-/

namespace FormulaTypes

theorem bind_eq_ok_iff {ε α β : Type} {x : Except ε α} {f : α → Except ε β} {b : β} :
    (x >>= f) = .ok b ↔ ∃ a, x = .ok a ∧ f a = .ok b := by
  cases x with
  | error e => simp [bind, Except.bind]
  | ok a => simp [bind, Except.bind]

namespace Run

variable {α β : Type}

/-- What comes out of one run after another came out of the second one, after the first. -/
theorem bind_eq_ok_iff {x : Run α} {f : α → Run β} {b : β} :
    (x >>= f).outcome = .ok b ↔ ∃ a, x.outcome = .ok a ∧ (f a).outcome = .ok b := by
  rw [outcome_bind]
  cases x.outcome with
  | error fault => simp [Except.bind]
  | ok a => simp [Except.bind]

theorem bind_of_ok {x : Run α} {f : α → Run β} {a : α} (h : x.outcome = .ok a) :
    (x >>= f).outcome = (f a).outcome := by
  rw [outcome_bind, h]
  rfl

/-- Only what the first run comes to matters for the second one. -/
theorem bind_congr_of_ok {x : Run α} {f g : α → Run β} (h : ∀ a, x.outcome = .ok a → f a = g a) :
    (x >>= f) = x >>= g := by
  change andThen x f = andThen x g
  unfold andThen
  cases hx : x.outcome with
  | ok a =>
    dsimp only
    rw [h a hx]
  | error fault => rfl

/-- One run after another is the same however the runs are grouped. -/
instance : LawfulMonad Run := by
  refine LawfulMonad.mk' Run (fun x => ?_) (fun a f => ?_) fun x f g => ?_
  · change andThen x done = x
    obtain ⟨demands, outcome⟩ := x
    cases outcome with
    | ok a => simp only [andThen, done, List.append_nil]
    | error fault => rfl
  · rfl
  · change andThen (andThen x f) g = andThen x fun a => andThen (f a) g
    obtain ⟨demands, outcome⟩ := x
    cases outcome with
    | error fault => rfl
    | ok a =>
      simp only [andThen]
      cases (f a).outcome with
      | error fault => rfl
      | ok b => simp only [List.append_assoc]

/-- The run ends without a fault. -/
def Ends (x : Run α) : Prop := ∃ a, x.outcome = .ok a

theorem ends_pure (a : α) : (pure a : Run α).Ends := ⟨a, rfl⟩

theorem ends_bind {x : Run α} {f : α → Run β} (hx : x.Ends) (hf : ∀ a, x.outcome = .ok a → (f a).Ends) :
    (x >>= f).Ends := by
  obtain ⟨a, ha⟩ := hx
  obtain ⟨b, hb⟩ := hf a ha
  exact ⟨b, bind_eq_ok_iff.2 ⟨a, ha, hb⟩⟩

/-- The run ends, and its result has the property. -/
def Gives (x : Run α) (P : α → Prop) : Prop := ∃ a, x.outcome = .ok a ∧ P a

theorem Gives.ends {x : Run α} {P : α → Prop} (h : x.Gives P) : x.Ends := by
  obtain ⟨a, ha, -⟩ := h
  exact ⟨a, ha⟩

theorem gives_pure {P : α → Prop} {a : α} (h : P a) : (pure a : Run α).Gives P := ⟨a, rfl, h⟩

theorem gives_none {P : α → Prop} : (pure none : Run (Option α)).Gives fun found => ∀ a ∈ found, P a := by
  refine gives_pure ?_
  rintro a ⟨⟩

theorem gives_some {P : α → Prop} {a : α} (h : P a) :
    (pure (some a) : Run (Option α)).Gives fun found => ∀ a ∈ found, P a := by
  refine gives_pure ?_
  rintro b ⟨⟩
  exact h

theorem gives_bind {x : Run α} {f : α → Run β} {P : α → Prop} {Q : β → Prop} (hx : x.Gives P)
    (hf : ∀ a, P a → (f a).Gives Q) : (x >>= f).Gives Q := by
  obtain ⟨a, ha, hp⟩ := hx
  obtain ⟨b, hb, hq⟩ := hf a hp
  exact ⟨b, bind_eq_ok_iff.2 ⟨a, ha, hb⟩, hq⟩

theorem gives_ite {p : Prop} [Decidable p] {x y : Run α} {P : α → Prop} (hx : p → x.Gives P) (hy : ¬ p → y.Gives P) :
    (if p then x else y).Gives P := by
  split
  · next h => exact hx h
  · next h => exact hy h

theorem gives_of_ok {x : Run α} {f : α → Run β} {a : α} {Q : β → Prop} (hx : x.outcome = .ok a) (hf : (f a).Gives Q) :
    (x >>= f).Gives Q := by
  obtain ⟨b, hb, hq⟩ := hf
  exact ⟨b, (bind_of_ok hx).trans hb, hq⟩

section Along

variable {look : Bytes → Ty → Run (Option β)} {fields : List (Bytes × Ty)}

/-- A walk finds nothing if nothing is found at any field. -/
theorem firstAlong_eq_none_iff :
    (firstAlong fields look).outcome = .ok none ↔ ∀ e ∈ fields, (look e.1 e.2).outcome = .ok none := by
  induction fields with
  | nil => simp [firstAlong]
  | cons e fields ih =>
    obtain ⟨name, t⟩ := e
    rw [firstAlong, bind_eq_ok_iff]
    constructor
    · rintro ⟨found, hfound, hrest⟩ e he
      cases found with
      | some b => cases hrest
      | none =>
        rcases List.mem_cons.1 he with rfl | he
        · exact hfound
        · exact ih.1 hrest e he
    · intro h
      refine ⟨none, h (name, t) List.mem_cons_self, ih.2 ?_⟩
      intro e he
      exact h e (List.mem_cons_of_mem _ he)

/-- Walks that do the same at each field are the same. -/
theorem firstAlong_congr {look' : Bytes → Ty → Run (Option β)} (h : ∀ e ∈ fields, look e.1 e.2 = look' e.1 e.2) :
    firstAlong fields look = firstAlong fields look' := by
  induction fields with
  | nil => rfl
  | cons e fields ih =>
    rw [firstAlong, firstAlong, h e List.mem_cons_self, ih fun e he => h e (List.mem_cons_of_mem _ he)]

/-- A walk that finds nothing and demands nothing at any field does so as a whole. -/
theorem firstAlong_eq_pure (h : ∀ e ∈ fields, look e.1 e.2 = pure none) : firstAlong fields look = pure none := by
  induction fields with
  | nil => rfl
  | cons e fields ih =>
    rw [firstAlong, h e List.mem_cons_self]
    exact ih fun e he => h e (List.mem_cons_of_mem _ he)

/-- What a walk finds is found at some field, and nothing at the fields before it. -/
theorem firstAlong_eq_some_iff {b : β} :
    (firstAlong fields look).outcome = .ok (some b) ↔ ∃ before e after, fields = before ++ e :: after ∧
      (∀ d ∈ before, (look d.1 d.2).outcome = .ok none) ∧ (look e.1 e.2).outcome = .ok (some b) := by
  constructor
  · intro h
    induction fields with
    | nil => cases h
    | cons e fields ih =>
      obtain ⟨name, t⟩ := e
      rw [firstAlong, bind_eq_ok_iff] at h
      obtain ⟨found, hfound, hrest⟩ := h
      cases found with
      | some b' =>
        cases hrest
        exact ⟨[], (name, t), fields, rfl, List.forall_mem_nil _, hfound⟩
      | none =>
        obtain ⟨before, e, after, rfl, hbefore, he⟩ := ih hrest
        exact ⟨(name, t) :: before, e, after, rfl, List.forall_mem_cons.2 ⟨hfound, hbefore⟩, he⟩
  · rintro ⟨before, e, after, rfl, hbefore, he⟩
    induction before with
    | nil =>
      rw [List.nil_append, firstAlong, bind_of_ok he]
      rfl
    | cons d before ih =>
      obtain ⟨hd, hbefore⟩ := List.forall_mem_cons.1 hbefore
      rw [List.cons_append, firstAlong, bind_of_ok hd]
      exact ih hbefore

/-- A walk ends if it does at every field, and what it finds is what may be found there. -/
theorem gives_firstAlong {P : Option β → Prop} (hnone : P none) (h : ∀ e ∈ fields, (look e.1 e.2).Gives P) :
    (firstAlong fields look).Gives P := by
  induction fields with
  | nil => exact gives_pure hnone
  | cons e fields ih =>
    obtain ⟨name, t⟩ := e
    rw [firstAlong]
    refine gives_bind (h (name, t) List.mem_cons_self) ?_
    rintro (_ | b) hb
    · exact ih fun e he => h e (List.mem_cons_of_mem _ he)
    · exact gives_pure hb

/-- What a collecting walk keeps of one field. -/
def kept (finding : Bytes × Ty → Option β) (e : Bytes × Ty) : Option (Bytes × β) := (finding e).map (e.1, ·)

/-- A collecting walk gives the findings at all fields, if it ends at each. -/
theorem collectAlong_eq_ok {finding : Bytes × Ty → Option β}
    (h : ∀ e ∈ fields, (look e.1 e.2).outcome = .ok (finding e)) :
    (collectAlong fields look).outcome = .ok (fields.filterMap (kept finding)) := by
  induction fields with
  | nil => rfl
  | cons e fields ih =>
    obtain ⟨name, t⟩ := e
    have hfirst := h (name, t) List.mem_cons_self
    have hrest := ih fun e he => h e (List.mem_cons_of_mem _ he)
    rw [collectAlong, bind_of_ok hfirst, bind_of_ok hrest]
    cases hf : finding (name, t) with
    | some b => simp [kept, hf]
    | none => simp [kept, hf]

/-- A collecting walk ends if it does at every field, and gives what may be found there, in the order of the fields. -/
theorem gives_collectAlong {P : β → Prop} (h : ∀ e ∈ fields, (look e.1 e.2).Gives fun found => ∀ b ∈ found, P b) :
    (collectAlong fields look).Gives fun found =>
      List.Sublist (found.map Prod.fst) (fields.map Prod.fst) ∧ ∀ e ∈ found, P e.2 := by
  induction fields with
  | nil => exact gives_pure ⟨List.Sublist.refl _, List.forall_mem_nil _⟩
  | cons e fields ih =>
    obtain ⟨name, t⟩ := e
    rw [collectAlong]
    refine gives_bind (h (name, t) List.mem_cons_self) fun found hfound => ?_
    refine gives_bind (ih fun e he => h e (List.mem_cons_of_mem _ he)) ?_
    rintro more ⟨hsub, hmore⟩
    cases found with
    | some b => exact gives_pure ⟨hsub.cons_cons name, List.forall_mem_cons.2 ⟨hfound b rfl, hmore⟩⟩
    | none => exact gives_pure ⟨hsub.cons name, hmore⟩

/-- A collecting walk that ends did so at every field. -/
theorem ends_of_collectAlong {found : List (Bytes × β)} (h : (collectAlong fields look).outcome = .ok found) :
    ∀ e ∈ fields, (look e.1 e.2).Ends := by
  induction fields generalizing found with
  | nil =>
    intro e he
    cases he
  | cons e fields ih =>
    obtain ⟨name, t⟩ := e
    rw [collectAlong, bind_eq_ok_iff] at h
    obtain ⟨first, hfirst, h⟩ := h
    obtain ⟨more, hrest, -⟩ := bind_eq_ok_iff.1 h
    exact List.forall_mem_cons.2 ⟨⟨first, hfirst⟩, ih hrest⟩

end Along

/-! ## Two runs -/

/-- Two runs end in related results, or in the same fault. -/
inductive Agree (R : α → β → Prop) (x : Run α) (y : Run β) : Prop
  | ok {a : α} {b : β} (hx : x.outcome = .ok a) (hy : y.outcome = .ok b) (h : R a b)
  | fault {fault : Fault} (hx : x.outcome = .error fault) (hy : y.outcome = .error fault)

section Agree

variable {α' β' : Type} {R : α → α' → Prop} {S : β → β' → Prop}

theorem Agree.outcome_eq {x y : Run α} (h : Agree Eq x y) : x.outcome = y.outcome := by
  cases h with
  | ok hx hy h => rw [hx, hy, h]
  | fault hx hy => rw [hx, hy]

theorem agree_of_outcome_eq {T : α → α → Prop} (hT : ∀ a, T a a) {x y : Run α} (h : x.outcome = y.outcome) :
    Agree T x y := by
  cases hx : x.outcome with
  | ok a => exact .ok hx (h.symm.trans hx) (hT a)
  | error fault => exact .fault hx (h.symm.trans hx)

theorem agree_pure {a : α} {a' : α'} (h : R a a') : Agree R (pure a : Run α) (pure a' : Run α') := .ok rfl rfl h

theorem agree_bind {x : Run α} {x' : Run α'} {f : α → Run β} {f' : α' → Run β'} (hx : Agree R x x')
    (hf : ∀ a a', R a a' → Agree S (f a) (f' a')) : Agree S (x >>= f) (x' >>= f') := by
  cases hx with
  | @fault fault hx hx' =>
    have hbind : (x >>= f).outcome = .error fault := by
      rw [outcome_bind, hx]
      rfl
    refine .fault hbind ?_
    rw [outcome_bind, hx']
    rfl
  | ok hx hx' h =>
    cases hf _ _ h with
    | ok hf hf' h => exact .ok ((bind_of_ok hx).trans hf) ((bind_of_ok hx').trans hf') h
    | fault hf hf' => exact .fault ((bind_of_ok hx).trans hf) ((bind_of_ok hx').trans hf')

theorem agree_ite {p q : Prop} [Decidable p] [Decidable q] {x y : Run α} {x' y' : Run α'} (h : p ↔ q)
    (hx : p → Agree R x x') (hy : ¬ p → Agree R y y') : Agree R (if p then x else y) (if q then x' else y') := by
  by_cases hp : p
  · rw [if_pos hp, if_pos (h.1 hp)]
    exact hx hp
  · rw [if_neg hp, if_neg (mt h.2 hp)]
    exact hy hp

variable {fields fields' : List (Bytes × Ty)}

/-- Walks find something or nothing alike if they do so at each field. -/
theorem agree_firstAlong {look : Bytes → Ty → Run (Option α)} {look' : Bytes → Ty → Run (Option α')}
    (h : List.Forall₂ (fun e f => Agree (fun x y => x.isNone = y.isNone) (look e.1 e.2) (look' f.1 f.2))
      fields fields') :
    Agree (fun x y => x.isNone = y.isNone) (firstAlong fields look) (firstAlong fields' look') := by
  induction h with
  | nil => exact agree_pure rfl
  | cons he _ ih =>
    rw [firstAlong, firstAlong]
    refine agree_bind he ?_
    rintro (_ | a) (_ | a') hfound
    · exact ih
    · cases hfound
    · cases hfound
    · exact agree_pure rfl

/-- Collecting walks find related things under the same names if they do so at each field. -/
theorem agree_collectAlong {look : Bytes → Ty → Run (Option α)} {look' : Bytes → Ty → Run (Option α')}
    (h : List.Forall₂ (fun e f => e.1 = f.1 ∧ Agree (Option.Rel R) (look e.1 e.2) (look' f.1 f.2)) fields fields') :
    Agree (NameMap.Paired R) (collectAlong fields look) (collectAlong fields' look') := by
  induction h with
  | nil => exact agree_pure .nil
  | cons he _ ih =>
    rw [collectAlong, collectAlong]
    refine agree_bind he.2 fun found found' hfound => agree_bind ih fun more more' hmore => ?_
    cases hfound with
    | some hr => exact agree_pure (.cons ⟨he.1, hr⟩ hmore)
    | none => exact agree_pure hmore

end Agree

/-! ## Runs that demand no more -/

/-- A run that comes to the same as another one and demands, some demands aside, nothing that the other one does not. -/
structure Follows (P : Demand → Prop) (x y : Run α) : Prop where
  outcome_eq : x.outcome = y.outcome
  demands : ∀ d ∈ x.demands, P d ∨ d ∈ y.demands

section Follows

variable {P : Demand → Prop}

theorem follows_self (x : Run α) : Follows P x x := ⟨rfl, fun _ hd => .inr hd⟩

theorem follows_note {demands demands' : List Demand} (h : ∀ d ∈ demands, P d) :
    Follows P (note demands) (note demands') := ⟨rfl, fun d hd => .inl (h d hd)⟩

theorem follows_bind {x x' : Run α} {f f' : α → Run β} (hx : Follows P x x') (hf : ∀ a, Follows P (f a) (f' a)) :
    Follows P (x >>= f) (x' >>= f') := by
  change Follows P (andThen x f) (andThen x' f')
  unfold andThen
  rw [← hx.outcome_eq]
  cases x.outcome with
  | error fault => exact ⟨rfl, hx.demands⟩
  | ok a =>
    refine ⟨(hf a).outcome_eq, fun d hd => ?_⟩
    rcases List.mem_append.1 hd with hd | hd
    · exact (hx.demands d hd).imp_right (List.mem_append_left _)
    · exact ((hf a).demands d hd).imp_right (List.mem_append_right _)

/-- A walk follows another one if it does so at each field. -/
theorem follows_firstAlong {look look' : Bytes → Ty → Run (Option β)} {fields : List (Bytes × Ty)}
    (h : ∀ e ∈ fields, Follows P (look e.1 e.2) (look' e.1 e.2)) :
    Follows P (firstAlong fields look) (firstAlong fields look') := by
  induction fields with
  | nil => exact follows_self _
  | cons e fields ih =>
    obtain ⟨hfirst, hrest⟩ := List.forall_mem_cons.1 h
    rw [firstAlong, firstAlong]
    refine follows_bind hfirst ?_
    rintro (_ | b)
    · exact ih hrest
    · exact follows_self _

/-- Walks come to the same if they do so at each field. -/
theorem outcome_firstAlong_congr {look look' : Bytes → Ty → Run (Option β)} {fields : List (Bytes × Ty)}
    (h : ∀ e ∈ fields, (look e.1 e.2).outcome = (look' e.1 e.2).outcome) :
    (firstAlong fields look).outcome = (firstAlong fields look').outcome := by
  have hfollows : Follows (fun _ => True) (firstAlong fields look) (firstAlong fields look') :=
    follows_firstAlong fun e he => ⟨h e he, fun _ _ => .inl trivial⟩
  exact hfollows.outcome_eq

end Follows

end Run

end FormulaTypes
