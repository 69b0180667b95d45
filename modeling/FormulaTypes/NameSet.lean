import FormulaTypes.Bytes

/-!
# Sets of names

A set of names is the list of its members in strictly increasing order. It carries the proof of that, so two sets with
the same members are the same (`NameSet.ext_of_mem`).
-/

namespace FormulaTypes

/-- A set of names. -/
@[ext] structure NameSet where
  members : List Bytes
  ordered : members.Pairwise fun a b => Bytes.precedes a b = true
  deriving DecidableEq

namespace NameSet

/-- The set without members. -/
instance : EmptyCollection NameSet := ⟨⟨[], .nil⟩⟩

instance : Membership Bytes NameSet := ⟨fun s name => name ∈ s.members⟩

/-- Names in order that have the same members are the same. -/
theorem eq_of_mem_iff {names others : List Bytes} (h : names.Pairwise fun a b => Bytes.precedes a b = true)
    (k : others.Pairwise fun a b => Bytes.precedes a b = true) (hmem : ∀ name, name ∈ names ↔ name ∈ others) :
    names = others := by
  induction names generalizing others with
  | nil =>
    cases others with
    | nil => rfl
    | cons other others => exact absurd ((hmem other).2 List.mem_cons_self) List.not_mem_nil
  | cons name names ih =>
    cases others with
    | nil => exact absurd ((hmem name).1 List.mem_cons_self) List.not_mem_nil
    | cons other others =>
      obtain ⟨hname, hnames⟩ := List.pairwise_cons.1 h
      obtain ⟨hother, hothers⟩ := List.pairwise_cons.1 k
      have hfirst : name = other := by
        rcases List.mem_cons.1 ((hmem name).1 List.mem_cons_self) with heq | hlater
        · exact heq
        · rcases List.mem_cons.1 ((hmem other).2 List.mem_cons_self) with heq | hearlier
          · exact heq.symm
          · have := Bytes.precedes_trans (hother name hlater) (hname other hearlier)
            simp at this
      subst hfirst
      have hrest : ∀ later, later ∈ names ↔ later ∈ others := by
        intro later
        have hlater := hmem later
        simp only [List.mem_cons] at hlater
        constructor
        · intro hl
          exact (hlater.1 (.inr hl)).resolve_left fun heq => by simpa [heq] using hname later hl
        · intro hl
          exact (hlater.2 (.inr hl)).resolve_left fun heq => by simpa [heq] using hother later hl
      rw [ih hnames hothers hrest]

/-- Sets with the same members are the same. -/
theorem ext_of_mem {s t : NameSet} (h : ∀ name, name ∈ s ↔ name ∈ t) : s = t :=
  NameSet.ext (eq_of_mem_iff s.ordered t.ordered h)

theorem mem_def {s : NameSet} {name : Bytes} : name ∈ s ↔ name ∈ s.members := Iff.rfl

/-- Puts a name where it stands among names in order. -/
def place : List Bytes → Bytes → List Bytes
  | [], name => [name]
  | first :: rest, name =>
    if first = name then first :: rest
    else if Bytes.precedes name first then name :: first :: rest
    else first :: place rest name

theorem mem_place {names : List Bytes} {name other : Bytes} :
    other ∈ place names name ↔ other = name ∨ other ∈ names := by
  induction names with
  | nil => simp [place]
  | cons first rest ih =>
    simp only [place]
    split
    · next h => subst h; simp
    · split
      · simp
      · simp only [List.mem_cons, ih]; grind

/-- A name that is put in its place keeps the order. -/
theorem pairwise_place {names : List Bytes} (h : names.Pairwise fun a b => Bytes.precedes a b = true) (name : Bytes) :
    (place names name).Pairwise fun a b => Bytes.precedes a b = true := by
  induction names with
  | nil => simp [place]
  | cons first rest ih =>
    obtain ⟨hb, ho⟩ := List.pairwise_cons.1 h
    simp only [place]
    split
    · exact h
    · split
      · next hp =>
        refine List.pairwise_cons.2 ⟨fun o hm => ?_, h⟩
        rcases List.mem_cons.1 hm with rfl | hm
        · exact hp
        · exact Bytes.precedes_trans hp (hb o hm)
      · next hk hp =>
        refine List.pairwise_cons.2 ⟨fun o hm => ?_, ih ho⟩
        rcases mem_place.1 hm with rfl | hm
        · exact Bytes.precedes_of_ne (fun e => hk e.symm) (by simpa using hp)
        · exact hb o hm

/-- Adds a member. -/
def insert (s : NameSet) (name : Bytes) : NameSet := ⟨place s.members name, pairwise_place s.ordered name⟩

/-- Adds members one after another. -/
def insertAll (s : NameSet) (names : List Bytes) : NameSet := names.foldl insert s

/-- The set of some names. -/
def ofList (names : List Bytes) : NameSet := insertAll ∅ names

@[simp] theorem mem_insert {s : NameSet} {name other : Bytes} : other ∈ s.insert name ↔ other = name ∨ other ∈ s :=
  mem_place

theorem mem_insertAll {names : List Bytes} {s : NameSet} {other : Bytes} :
    other ∈ s.insertAll names ↔ other ∈ names ∨ other ∈ s := by
  induction names generalizing s with
  | nil => simp [insertAll]
  | cons name names ih =>
    have := ih (s := s.insert name)
    simp only [insertAll, List.foldl_cons, List.mem_cons, mem_insert] at this ⊢
    grind

/-- The set of the members of a set is that set. -/
theorem ofList_members (s : NameSet) : ofList s.members = s := by
  refine ext_of_mem fun name => ?_
  rw [ofList, mem_insertAll, ← mem_def]
  exact or_iff_left List.not_mem_nil

end NameSet

end FormulaTypes
