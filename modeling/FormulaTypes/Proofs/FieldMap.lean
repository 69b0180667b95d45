import Mathlib.Data.Set.Card
import FormulaTypes.Proofs.NameMap
import FormulaTypes.Proofs.Ty.Equality
import FormulaTypes.Ty.Build

/-!
# Maps depend on their content only

A map comes about by changes that bind and unbind names: each of them makes a new map (`changed`), or all are made in
place by a builder (`builtBy`), which comes to the same (`build_builtBy`). `latest changes` says what is bound
after them. One change keeps the order and decides what its own name is bound to (`ordered_apply`, `find?_apply`), so a
map after any changes lists what is bound, in order and each name once (`changed_lists`). Two maps of fields that bind
the same names to equal types are equal and have the same digest, however they came about.
-/

namespace FormulaTypes

/-- The order of names is the lexicographic order of their bytes. -/
theorem Bytes.precedes_iff_lex {s t : Bytes} :
    Bytes.precedes s t = true ↔ List.Lex (fun a b : UInt8 => a.toNat < b.toNat) s t := by
  induction s generalizing t with
  | nil =>
    cases t with
    | nil => exact iff_of_false (by simp) (by rintro ⟨⟩)
    | cons b t => exact iff_of_true rfl .nil
  | cons a s ih =>
    cases t with
    | nil => exact iff_of_false (by simp) (by rintro ⟨⟩)
    | cons b t =>
      rw [Bytes.cons_precedes_cons, ih]
      constructor
      · rintro (h | ⟨rfl, h⟩)
        · exact .rel h
        · exact .cons h
      · intro h
        cases h with
        | rel h => exact .inl h
        | cons h => exact .inr ⟨rfl, h⟩

namespace NameMap

/-- A change of a map. -/
inductive Change (α : Type) where
  | set (name : Bytes) (value : α)
  | delete (name : Bytes)

variable {α : Type} {m : NameMap α}

/-- The name that a change is about. -/
def Change.name : Change α → Bytes
  | .set name _ | .delete name => name

/-- What a change leaves its name bound to. -/
def Change.value? : Change α → Option α
  | .set _ value => some value
  | .delete _ => none

/-- The map after a change. -/
def Change.apply (m : NameMap α) : Change α → NameMap α
  | .set name value => m.insert name value
  | .delete name => m.erase name

/-- The map after some changes, from the empty one on. -/
def changed (changes : List (Change α)) : NameMap α := changes.foldl Change.apply []

/-- The builder after a change. -/
def Change.applyIn (b : MapBuilder α) : Change α → MapBuilder α
  | .set name value => b.set name value
  | .delete name => b.delete name

/-- The builder after some changes, from a new one on. -/
def builtBy (changes : List (Change α)) : MapBuilder α := changes.foldl Change.applyIn .new

/-- What a name is bound to after some changes: what the last one about it leaves. -/
def latest (changes : List (Change α)) (name : Bytes) : Option α :=
  (changes.reverse.find? fun c => c.name = name).bind Change.value?

/-! ## Changes -/

theorem latest_append (changes : List (Change α)) (c : Change α) (name : Bytes) :
    latest (changes ++ [c]) name = if c.name = name then c.value? else latest changes name := by
  rw [latest, List.reverse_append, List.reverse_singleton, List.singleton_append, List.find?_cons]
  split
  · next h =>
    rw [if_pos (of_decide_eq_true h)]
    rfl
  · next h =>
    rw [if_neg (of_decide_eq_false h)]
    rfl

theorem ordered_apply (h : m.Ordered) (c : Change α) : (c.apply m).Ordered := by
  cases c with
  | set name value => exact h.insert name value
  | delete name => exact h.erase name

/-- A change decides what its own name is bound to and nothing else. -/
theorem find?_apply (h : m.Ordered) (c : Change α) (name : Bytes) :
    (c.apply m).find? name = if c.name = name then c.value? else m.find? name := by
  cases c with
  | set key value => exact find?_insert m key name value
  | delete key => exact find?_erase h key name

theorem changed_append (changes : List (Change α)) (c : Change α) :
    changed (changes ++ [c]) = c.apply (changed changes) := by
  rw [changed, List.foldl_append]
  rfl

/-- After any changes the map is in order and binds what the changes left. -/
theorem changed_spec (changes : List (Change α)) :
    (changed changes).Ordered ∧ ∀ name, (changed changes).find? name = latest changes name := by
  induction changes using List.reverseRecOn with
  | nil => exact ⟨ordered_nil, fun _ => rfl⟩
  | append_singleton changes c ih =>
    obtain ⟨hordered, hfind⟩ := ih
    rw [changed_append]
    refine ⟨ordered_apply hordered c, fun name => ?_⟩
    rw [find?_apply hordered, hfind, latest_append]

/-- A change in place makes the map that a change of the map so far makes. -/
theorem build_applyIn (b : MapBuilder α) (c : Change α) : (c.applyIn b).build = c.apply b.build := by
  cases c <;> rfl

/-- What is built by changes in place is what they make of the empty map. -/
theorem build_builtBy (changes : List (Change α)) : (builtBy changes).build = changed changes := by
  induction changes using List.reverseRecOn with
  | nil => rfl
  | append_singleton changes c ih =>
    rw [changed_append, ← ih, ← build_applyIn, builtBy, List.foldl_append]
    rfl

/-- Nothing is unbound where nothing is bound. -/
theorem erase_eq_self {name : Bytes} (h : m.find? name = none) : m.erase name = m := by
  induction m with
  | nil => rfl
  | cons e m ih =>
    obtain ⟨key, value⟩ := e
    rw [NameMap.find?] at h
    split at h
    · cases h
    · next hk => rw [erase, if_neg hk, ih h]

/-! ## What a map in order lists -/

/-- The map lists what is bound: the names in strictly increasing order of their bytes, each with what it is bound to,
and nothing else. -/
structure Lists (m : NameMap α) (bound : Bytes → Option α) : Prop where
  increasing : m.names.Pairwise (List.Lex fun a b : UInt8 => a.toNat < b.toNat)
  names : ∀ name, name ∈ m.names ↔ (bound name).isSome = true
  entries : ∀ name value, (name, value) ∈ m ↔ bound name = some value
  find? : ∀ name, m.find? name = bound name
  length : m.length = {name | (bound name).isSome = true}.ncard

theorem Ordered.nodup (h : m.Ordered) : m.names.Nodup := by
  refine List.Pairwise.imp ?_ h
  rintro a b hab rfl
  rw [Bytes.precedes_self] at hab
  cases hab

theorem Ordered.lists (h : m.Ordered) : m.Lists m.find? where
  increasing := h.imp Bytes.precedes_iff_lex.1
  names := mem_names_iff
  entries _ _ := ⟨find?_of_mem h, mem_of_find?⟩
  find? _ := rfl
  length := by
    have hset : {name | (m.find? name).isSome = true} = (m.names.toFinset : Set Bytes) := by
      ext name
      rw [Finset.mem_coe, List.mem_toFinset, mem_names_iff]
      rfl
    rw [hset, Set.ncard_coe_finset, List.toFinset_card_of_nodup h.nodup, NameMap.names, List.length_map]

theorem changed_lists (changes : List (Change α)) : (changed changes).Lists (latest changes) := by
  obtain ⟨hordered, hfind⟩ := changed_spec changes
  rw [← funext hfind]
  exact hordered.lists

end NameMap

/-! ## Maps of fields -/

open NameMap

/-- After both series of changes the same names are bound, and to equal types. -/
def SameContent (changes others : List (Change Ty)) : Prop :=
  ∀ name, Option.Rel (fun t u => t.equal u = true) (latest changes name) (latest others name)

/-- Maps of fields are equal if they bind the same names to equal types. -/
theorem fieldsEqual_changed_iff (changes others : List (Change Ty)) :
    fieldsEqual (changed changes) (changed others) = true ↔ SameContent changes others := by
  obtain ⟨hordered, hfind⟩ := changed_spec changes
  obtain ⟨hordered', hfind'⟩ := changed_spec others
  rw [fieldsEqual_iff, SameContent, ← funext hfind, ← funext hfind']
  exact ⟨fun h => Paired.find? h, paired_of_find? hordered hordered'⟩

/-- **Maps of fields depend on their content only.** After any changes a map lists what is bound: names in strictly
increasing order, each once, with what the last change about it left. Unbinding a name that is not bound changes
nothing. A builder that went through the same changes binds the same and builds the same map, and a map that is made of
entries at once is one of these. Two maps are equal exactly if they bind the same names to equal types, whatever changes
led to them, and then they have the same digest. -/
theorem changed_depends_on_content (changes : List (Change Ty)) :
    (changed changes).Lists (latest changes) ∧
      (∀ name, latest changes name = none → (changed changes).erase name = changed changes) ∧
      ((builtBy changes).build = changed changes ∧
        (∀ name, (builtBy changes).find? name = latest changes name) ∧
        (builtBy changes).size = (changed changes).length) ∧
      (∀ entries, ofList entries = changed (entries.map fun e : Bytes × Ty => .set e.1 e.2)) ∧
      ∀ others, (fieldsEqual (changed changes) (changed others) = true ↔ SameContent changes others) ∧
        (SameContent changes others → fieldsDigest (changed changes) = fieldsDigest (changed others)) := by
  obtain ⟨-, hfind⟩ := changed_spec changes
  have hbuild : (builtBy changes).bound.entries = changed changes := build_builtBy changes
  refine ⟨changed_lists changes, fun name h => erase_eq_self ((hfind name).trans h), ⟨hbuild, ?_, ?_⟩,
    fun entries => ?_, fun others => ⟨fieldsEqual_changed_iff changes others, ?_⟩⟩
  · intro name
    rw [MapBuilder.find?, OrderedMap.find?, hbuild, hfind]
  · rw [MapBuilder.size, hbuild]
  · rw [changed, List.foldl_map]
    rfl
  · intro h
    exact fieldsDigest_eq_of_alike (fieldsEqual_iff.1 ((fieldsEqual_changed_iff changes others).2 h))

/-- A field that is bound, unbound and bound again. -/
def rebound : List (Change Ty) :=
  [.set (Bytes.ofString "B") .error, .set (Bytes.ofString "A") .error, .delete (Bytes.ofString "B"),
   .set (Bytes.ofString "B") (.ofForm (Ty.bareForm .number))]

/-- The same field bound once, to a type from another source. -/
def boundOnce : List (Change Ty) :=
  [.set (Bytes.ofString "B") ((Ty.ofForm (Ty.bareForm .number)).withSources [Bytes.ofString "ledger"]),
   .set (Bytes.ofString "A") .error]

theorem changed_depends_on_content_rebound :
    SameContent rebound boundOnce ∧ fieldsDigest (changed rebound) = fieldsDigest (changed boundOnce) := by
  have hsame : SameContent rebound boundOnce := by
    intro name
    by_cases hB : Bytes.ofString "B" = name
    · subst hB
      exact .some (Ty.equal_of_form_eq rfl rfl)
    by_cases hA : Bytes.ofString "A" = name
    · subst hA
      exact .some (Ty.equal_self _)
    · simp [latest, rebound, boundOnce, Change.name, hA, hB]
  obtain ⟨-, -, -, -, hequal⟩ := changed_depends_on_content rebound
  exact ⟨hsame, (hequal boundOnce).2 hsame⟩

end FormulaTypes
