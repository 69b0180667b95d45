import FormulaTypes.Bytes

/-!
# Maps from names

A map from names is the list of its entries in the order of their names, each name once (`NameMap.Ordered`). Inserting
and erasing keep the order, so two maps with the same entries are the same list whatever their history.

Types hold maps to types, and a field of an inductive type cannot be a list of that type with a proof about it. So the
map is the bare list, and its order a proposition about it. A map to anything else, or one that stands outside of types,
carries the proof (`OrderedMap`), and so does one that is changed in place until it is used (`MapBuilder`).
-/

namespace FormulaTypes

/-- The entries of a map from names, in the order of the names. -/
abbrev NameMap (α : Type) := List (Bytes × α)

namespace NameMap

variable {α : Type}

/-- The value bound to a name. -/
def find? : NameMap α → Bytes → Option α
  | [], _ => none
  | (key, value) :: rest, name => if key = name then some value else find? rest name

/-- Binds a name, replacing what it was bound to. -/
def insert : NameMap α → Bytes → α → NameMap α
  | [], name, value => [(name, value)]
  | (key, old) :: rest, name, value =>
    if key = name then (name, value) :: rest
    else if Bytes.precedes name key then (name, value) :: (key, old) :: rest
    else (key, old) :: insert rest name value

/-- Unbinds a name; a map that does not bind it stays as it is. -/
def erase : NameMap α → Bytes → NameMap α
  | [], _ => []
  | (key, value) :: rest, name => if key = name then rest else (key, value) :: erase rest name

/-- Whether a name is bound. -/
def contains (m : NameMap α) (name : Bytes) : Bool := (m.find? name).isSome

/-- Binds entries one after another: of two for one name the later wins. -/
def insertAll (m : NameMap α) (entries : List (Bytes × α)) : NameMap α :=
  entries.foldl (fun m e => m.insert e.1 e.2) m

/-- The map of some entries: of two for one name the later wins. -/
def ofList (entries : List (Bytes × α)) : NameMap α := insertAll [] entries

/-- The bound names, in order. -/
def names (m : NameMap α) : List Bytes := m.map Prod.fst

/-- The entries are in strictly increasing order of their names. -/
def Ordered (m : NameMap α) : Prop := m.names.Pairwise (fun a b => Bytes.precedes a b = true)

/-! ## Look-up after an update -/

@[simp] theorem find?_nil (name : Bytes) : find? ([] : NameMap α) name = none := rfl

theorem find?_insert_self (m : NameMap α) (name : Bytes) (value : α) :
    (m.insert name value).find? name = some value := by
  induction m with
  | nil => simp [insert, find?]
  | cons e m ih =>
    obtain ⟨key, old⟩ := e
    simp only [insert]
    split
    · simp [find?]
    · split
      · simp [find?]
      · simp_all [find?]

theorem find?_insert_of_ne (m : NameMap α) {name other : Bytes} (value : α) (h : name ≠ other) :
    (m.insert name value).find? other = m.find? other := by
  induction m with
  | nil => simp [insert, find?, h]
  | cons e m ih =>
    obtain ⟨key, old⟩ := e
    simp only [insert]
    split
    · next hk => subst hk; simp [find?, h]
    · split
      · simp [find?, h]
      · simp only [find?, ih]

/-- A bound value stands in the list. -/
theorem mem_of_find? {m : NameMap α} {name : Bytes} {value : α} (h : m.find? name = some value) :
    (name, value) ∈ m := by
  induction m with
  | nil => simp at h
  | cons e m ih =>
    obtain ⟨key, old⟩ := e
    simp only [find?] at h
    split at h
    · next hk => subst hk; simp_all
    · exact List.mem_cons_of_mem _ (ih h)

/-! ## Order -/

theorem mem_insert {m : NameMap α} {name : Bytes} {value : α} {e : Bytes × α} (h : e ∈ m.insert name value) :
    e = (name, value) ∨ e ∈ m := by
  induction m with
  | nil => simpa [insert] using h
  | cons f m ih =>
    obtain ⟨key, old⟩ := f
    simp only [insert] at h
    split at h
    · rcases List.mem_cons.1 h with h | h
      · exact .inl h
      · exact .inr (List.mem_cons_of_mem _ h)
    · split at h
      · rcases List.mem_cons.1 h with h | h
        · exact .inl h
        · exact .inr h
      · rcases List.mem_cons.1 h with h | h
        · exact .inr (by simp [h])
        · exact (ih h).imp id (List.mem_cons_of_mem _)

theorem mem_of_mem_erase {m : NameMap α} {name : Bytes} {e : Bytes × α} (h : e ∈ m.erase name) : e ∈ m := by
  induction m with
  | nil => simp [erase] at h
  | cons f m ih =>
    obtain ⟨key, old⟩ := f
    simp only [erase] at h
    split at h
    · exact List.mem_cons_of_mem _ h
    · rcases List.mem_cons.1 h with h | h
      · simp [h]
      · exact List.mem_cons_of_mem _ (ih h)

theorem ordered_cons {e : Bytes × α} {m : NameMap α} :
    Ordered (e :: m) ↔ (∀ f ∈ m, Bytes.precedes e.1 f.1 = true) ∧ Ordered m := by
  simp [Ordered, names, List.pairwise_cons]

theorem ordered_nil : Ordered ([] : NameMap α) := by simp [Ordered, names]

/-- Inserting keeps the order. -/
theorem Ordered.insert {m : NameMap α} (h : m.Ordered) (name : Bytes) (value : α) : (m.insert name value).Ordered := by
  induction m with
  | nil => simp [NameMap.insert, Ordered, names]
  | cons e m ih =>
    obtain ⟨key, old⟩ := e
    obtain ⟨hb, ho⟩ := ordered_cons.1 h
    simp only [NameMap.insert]
    split
    · next hk => subst hk; exact ordered_cons.2 ⟨hb, ho⟩
    · split
      · next hk hp =>
        refine ordered_cons.2 ⟨fun f hf => ?_, h⟩
        rcases List.mem_cons.1 hf with rfl | hf
        · exact hp
        · exact Bytes.precedes_trans hp (hb f hf)
      · next hk hp =>
        refine ordered_cons.2 ⟨fun f hf => ?_, ih ho⟩
        rcases mem_insert hf with rfl | hf
        · exact Bytes.precedes_of_ne (fun e => hk e.symm) (by simpa using hp)
        · exact hb f hf

/-- Erasing keeps the order. -/
theorem Ordered.erase {m : NameMap α} (h : m.Ordered) (name : Bytes) : (m.erase name).Ordered := by
  induction m with
  | nil => simp [NameMap.erase, Ordered, names]
  | cons e m ih =>
    obtain ⟨key, old⟩ := e
    obtain ⟨hb, ho⟩ := ordered_cons.1 h
    simp only [NameMap.erase]
    split
    · exact ho
    · exact ordered_cons.2 ⟨fun f hf => hb f (mem_of_mem_erase hf), ih ho⟩

theorem Ordered.insertAll {m : NameMap α} (h : m.Ordered) (entries : List (Bytes × α)) :
    (m.insertAll entries).Ordered := by
  induction entries generalizing m with
  | nil => exact h
  | cons e entries ih => exact ih (h.insert e.1 e.2)

end NameMap

/-! ## Maps that carry their order -/

/-- A map from names with the proof that it is in order. -/
structure OrderedMap (α : Type) where
  entries : NameMap α
  ordered : entries.Ordered

namespace OrderedMap

variable {α : Type}

/-- The map that binds nothing. -/
def empty : OrderedMap α := ⟨[], NameMap.ordered_nil⟩

/-- The map of some entries; of two for one name the later wins. -/
def ofList (entries : List (Bytes × α)) : OrderedMap α :=
  ⟨NameMap.ofList entries, NameMap.ordered_nil.insertAll entries⟩

/-- The value bound to a name. -/
def find? (m : OrderedMap α) (name : Bytes) : Option α := m.entries.find? name

/-- Whether a name is bound. -/
def contains (m : OrderedMap α) (name : Bytes) : Bool := m.entries.contains name

/-- Binds a name, replacing what it was bound to. -/
def insert (m : OrderedMap α) (name : Bytes) (value : α) : OrderedMap α :=
  ⟨m.entries.insert name value, m.ordered.insert name value⟩

/-- Unbinds a name; a map that does not bind it stays as it is. -/
def erase (m : OrderedMap α) (name : Bytes) : OrderedMap α := ⟨m.entries.erase name, m.ordered.erase name⟩

/-- The bound names, in order. -/
def names (m : OrderedMap α) : List Bytes := m.entries.names

end OrderedMap

/-- A map under construction. -/
structure MapBuilder (α : Type) where
  /-- What is bound so far. -/
  bound : OrderedMap α

namespace MapBuilder

variable {α : Type}

/-- A builder that binds nothing. -/
def new : MapBuilder α := ⟨.empty⟩

/-- How many names are bound so far. -/
def size (b : MapBuilder α) : Nat := b.bound.entries.length

/-- What a name is bound to so far. -/
def find? (b : MapBuilder α) (name : Bytes) : Option α := b.bound.find? name

/-- The builder after a name was bound; a later value for it wins. -/
def set (b : MapBuilder α) (name : Bytes) (value : α) : MapBuilder α := ⟨b.bound.insert name value⟩

/-- The builder after a name was unbound. -/
def delete (b : MapBuilder α) (name : Bytes) : MapBuilder α := ⟨b.bound.erase name⟩

/-- The map that was built. -/
def build (b : MapBuilder α) : NameMap α := b.bound.entries

end MapBuilder

end FormulaTypes
