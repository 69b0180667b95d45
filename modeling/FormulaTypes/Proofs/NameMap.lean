import Mathlib.Data.List.Forall2
import FormulaTypes.NameMap

/-!
# Maps in order

* A map in order is what inserting its entries one by one makes (`ofList_eq_self`).
* Maps in order with the same names and related values are related entry by entry (`forall₂_of_mem`,
  `paired_of_find?`), and those that bind the same names to the same values are the same (`eq_of_find?`).
* In a map in order an entry is what its name is bound to (`find?_of_mem`).
* A map in order whose values have a property keeps both when it is changed (`All.insert`, `All.erase`).
* Maps with the same names and related values stay so when both are changed alike (`Paired.insert`, `Paired.map`).
-/

namespace FormulaTypes.NameMap

variable {α : Type} {m : NameMap α} {name : Bytes} {value : α}

/-! ## Building -/

/-- Binding a name that stands after all others puts it at the end. -/
theorem insert_eq_append (h : ∀ e ∈ m, Bytes.precedes e.1 name = true) :
    m.insert name value = m ++ [(name, value)] := by
  induction m with
  | nil => rfl
  | cons e m ih =>
    obtain ⟨key, old⟩ := e
    have hkey : Bytes.precedes key name = true := h (key, old) List.mem_cons_self
    have hne : key ≠ name := by
      rintro rfl
      rw [Bytes.precedes_self] at hkey
      cases hkey
    have hback : ¬ Bytes.precedes name key = true := by
      intro hback
      have := Bytes.precedes_trans hkey hback
      rw [Bytes.precedes_self] at this
      cases this
    rw [insert, if_neg hne, if_neg hback, ih fun e he => h e (List.mem_cons_of_mem _ he), List.cons_append]

/-- Entries in order are appended as they stand. -/
theorem insertAll_eq_append {entries : List (Bytes × α)} (h : Ordered (m ++ entries)) :
    m.insertAll entries = m ++ entries := by
  induction entries generalizing m with
  | nil => exact (List.append_nil m).symm
  | cons e entries ih =>
    have hlast : ∀ f ∈ m, Bytes.precedes f.1 e.1 = true := by
      intro f hf
      unfold Ordered names at h
      rw [List.map_append, List.pairwise_append] at h
      exact h.2.2 f.1 (List.mem_map_of_mem hf) e.1 (List.mem_map_of_mem List.mem_cons_self)
    have hsplit : m ++ e :: entries = (m ++ [e]) ++ entries := by
      rw [List.append_assoc, List.singleton_append]
    rw [insertAll, List.foldl_cons, insert_eq_append hlast]
    rw [hsplit] at h ⊢
    exact ih h

/-- The map is in order and all its values have the property. -/
structure All (P : α → Prop) (m : NameMap α) : Prop where
  ordered : m.Ordered
  holds : ∀ e ∈ m, P e.2

section All

variable {P : α → Prop}

theorem all_nil : All P ([] : NameMap α) := ⟨ordered_nil, List.forall_mem_nil _⟩

theorem All.insert (h : m.All P) (hv : P value) (name : Bytes) : (m.insert name value).All P := by
  refine ⟨h.ordered.insert name value, fun e he => ?_⟩
  rcases mem_insert he with rfl | he
  · exact hv
  · exact h.holds e he

/-- Entries are in order if their names are among names in order. -/
theorem all_of_sublist {β : Type} {m' : NameMap β} (h : m'.Ordered) (hs : List.Sublist m.names m'.names)
    (hv : ∀ e ∈ m, P e.2) : m.All P :=
  ⟨List.Pairwise.sublist hs h, hv⟩

theorem All.erase (h : m.All P) (name : Bytes) : (m.erase name).All P :=
  ⟨h.ordered.erase name, fun e he => h.holds e (mem_of_mem_erase he)⟩

theorem All.insertAll {entries : List (Bytes × α)} (h : m.All P) (hv : ∀ e ∈ entries, P e.2) :
    (m.insertAll entries).All P := by
  induction entries generalizing m with
  | nil => exact h
  | cons e entries ih =>
    obtain ⟨hfirst, hrest⟩ := List.forall_mem_cons.1 hv
    exact ih (h.insert hfirst e.1) hrest

end All

/-- A map in order is the map of its entries. -/
theorem ofList_eq_self (h : m.Ordered) : ofList m = m := insertAll_eq_append (m := []) h

/-- The order only looks at the names. -/
theorem ordered_of_names_eq {β : Type} {m : NameMap α} {m' : NameMap β} (h : m.Ordered) (hn : m'.names = m.names) :
    m'.Ordered := by
  unfold Ordered
  rw [hn]
  exact h

/-- Maps that are related entry by entry, name by name, have the same names. -/
theorem names_eq_of_forall₂ {β : Type} {R : Bytes × α → Bytes × β → Prop} {m : NameMap α} {m' : NameMap β}
    (hr : ∀ e f, R e f → e.1 = f.1) (h : List.Forall₂ R m m') : m.names = m'.names := by
  induction h with
  | nil => rfl
  | cons he _ ih => exact congrArg₂ List.cons (hr _ _ he) ih

/-- An entry has one that it is related to in a map that is related entry by entry. -/
theorem exists_mem_of_forall₂ {β : Type} {R : Bytes × α → Bytes × β → Prop} {m : NameMap α} {m' : NameMap β}
    (h : List.Forall₂ R m m') {e : Bytes × α} (he : e ∈ m) : ∃ f ∈ m', R e f := by
  induction h with
  | nil => cases he
  | @cons _ f _ _ hef _ ih =>
    rcases List.mem_cons.1 he with rfl | he
    · exact ⟨f, List.mem_cons_self, hef⟩
    · obtain ⟨g, hg, heg⟩ := ih he
      exact ⟨g, List.mem_cons_of_mem _ hg, heg⟩

/-- Maps in order with the same names and related values are related entry by entry. -/
theorem forall₂_of_mem {β : Type} {R : α → β → Prop} {m : NameMap α} {m' : NameMap β} (hm : m.Ordered)
    (hm' : m'.Ordered) (h : ∀ e ∈ m, ∃ f ∈ m', e.1 = f.1 ∧ R e.2 f.2) (h' : ∀ f ∈ m', ∃ e ∈ m, e.1 = f.1) :
    List.Forall₂ (fun e f => e.1 = f.1 ∧ R e.2 f.2) m m' := by
  have hirrefl : ∀ x y : Bytes, Bytes.precedes x y = true → x ≠ y := by
    rintro x _ hxy rfl
    rw [Bytes.precedes_self] at hxy
    cases hxy
  induction m generalizing m' with
  | nil =>
    cases m' with
    | nil => exact .nil
    | cons f m' =>
      obtain ⟨e, he, -⟩ := h' f List.mem_cons_self
      cases he
  | cons e m ih =>
    obtain ⟨hfirst, hrest⟩ := ordered_cons.1 hm
    obtain ⟨f, hf, hef⟩ := h e List.mem_cons_self
    cases m' with
    | nil => cases hf
    | cons g m' =>
      obtain ⟨hfirst', hrest'⟩ := ordered_cons.1 hm'
      have hname : e.1 = g.1 := by
        -- otherwise each of the two first entries stands before the other one
        obtain ⟨d, hd, hdg⟩ := h' g List.mem_cons_self
        rcases List.mem_cons.1 hd with rfl | hd
        · exact hdg
        rcases List.mem_cons.1 hf with rfl | hf
        · exact hef.1
        have hcycle := Bytes.precedes_trans (hfirst d hd) (hdg ▸ hfirst' f hf)
        exact absurd hef.1 (hirrefl _ _ hcycle)
      have hfg : f = g := by
        rcases List.mem_cons.1 hf with hf | hf
        · exact hf
        · exact absurd (hname.symm.trans hef.1) (hirrefl _ _ (hfirst' f hf))
      refine .cons ⟨hname, hfg ▸ hef.2⟩ (ih hrest hrest' ?_ ?_)
      · intro e' he'
        obtain ⟨f', hf', hef'⟩ := h e' (List.mem_cons_of_mem _ he')
        rcases List.mem_cons.1 hf' with rfl | hf'
        · exact absurd (hname.trans hef'.1.symm) (hirrefl _ _ (hfirst e' he'))
        · exact ⟨f', hf', hef'⟩
      · intro f' hf'
        obtain ⟨e', he', hef'⟩ := h' f' (List.mem_cons_of_mem _ hf')
        rcases List.mem_cons.1 he' with rfl | he'
        · exact absurd (hname.symm.trans hef') (hirrefl _ _ (hfirst' f' hf'))
        · exact ⟨e', he', hef'⟩

/-- Leaving out entries and changing values keeps the order. -/
theorem Ordered.filterMap {β : Type} {f : Bytes × α → Option (Bytes × β)} (h : m.Ordered)
    (hf : ∀ e e', f e = some e' → e'.1 = e.1) : Ordered (m.filterMap f) := by
  induction m with
  | nil => exact ordered_nil
  | cons e m ih =>
    obtain ⟨hfirst, hrest⟩ := ordered_cons.1 h
    cases he : f e with
    | none =>
      rw [List.filterMap_cons_none he]
      exact ih hrest
    | some e' =>
      rw [List.filterMap_cons_some he, ordered_cons]
      refine ⟨fun g' hg' => ?_, ih hrest⟩
      obtain ⟨g, hg, hgg'⟩ := List.mem_filterMap.1 hg'
      rw [hf e e' he, hf g g' hgg']
      exact hfirst g hg

/-- In a map in order the entries whose names precede a name stand before it. -/
theorem mem_of_precedes {before after : List (Bytes × α)} {d e : Bytes × α} (h : Ordered (before ++ e :: after))
    (hd : d ∈ before ++ e :: after) (hp : Bytes.precedes d.1 e.1 = true) : d ∈ before := by
  rcases List.mem_append.1 hd with hd | hd
  · exact hd
  have hrest : Ordered (e :: after) := by
    unfold Ordered names at h ⊢
    rw [List.map_append, List.pairwise_append] at h
    exact h.2.1
  rcases List.mem_cons.1 hd with rfl | hd
  · rw [Bytes.precedes_self] at hp
    cases hp
  · have hcycle := Bytes.precedes_trans hp ((ordered_cons.1 hrest).1 d hd)
    rw [Bytes.precedes_self] at hcycle
    cases hcycle

/-! ## Look-up -/

/-- In a map in order an entry is what its name is bound to. -/
theorem find?_of_mem (h : m.Ordered) (hmem : (name, value) ∈ m) : m.find? name = some value := by
  induction m with
  | nil => cases hmem
  | cons e m ih =>
    obtain ⟨hfirst, hrest⟩ := ordered_cons.1 h
    rcases List.mem_cons.1 hmem with rfl | hmem
    · exact if_pos rfl
    · have hne : e.1 ≠ name := by
        rintro rfl
        have := hfirst _ hmem
        rw [Bytes.precedes_self] at this
        cases this
      rw [find?, if_neg hne]
      exact ih hrest hmem

/-- In a map in order the name of the first entry is bound by no other. -/
theorem find?_tail_eq_none {e : Bytes × α} (h : Ordered (e :: m)) : m.find? e.1 = none := by
  cases hm : m.find? e.1 with
  | none => rfl
  | some value =>
    have := (ordered_cons.1 h).1 _ (mem_of_find? hm)
    rw [Bytes.precedes_self] at this
    cases this

/-- In a map in order an erased name is bound to nothing. -/
theorem find?_erase_self (h : m.Ordered) (name : Bytes) : (m.erase name).find? name = none := by
  induction m with
  | nil => rfl
  | cons e m ih =>
    obtain ⟨-, hrest⟩ := ordered_cons.1 h
    by_cases hname : e.1 = name
    · rw [erase, if_pos hname, ← hname]
      exact find?_tail_eq_none h
    · rw [erase, if_neg hname, find?, if_neg hname]
      exact ih hrest

theorem find?_erase_of_ne (m : NameMap α) {name other : Bytes} (h : name ≠ other) :
    (m.erase name).find? other = m.find? other := by
  induction m with
  | nil => rfl
  | cons e m ih =>
    by_cases hname : e.1 = name
    · rw [erase, if_pos hname, find?, if_neg (hname.trans_ne h)]
    · rw [erase, if_neg hname, find?, find?, ih]

theorem find?_insert (m : NameMap α) (name other : Bytes) (value : α) :
    (m.insert name value).find? other = if name = other then some value else m.find? other := by
  split
  · next h => rw [← h, find?_insert_self]
  · next h => rw [find?_insert_of_ne _ _ h]

theorem find?_erase (h : m.Ordered) (name other : Bytes) :
    (m.erase name).find? other = if name = other then none else m.find? other := by
  split
  · next h' => rw [← h', find?_erase_self h]
  · next h' => rw [find?_erase_of_ne _ h']

/-- A name is listed if it is bound. -/
theorem mem_names_iff (name : Bytes) : name ∈ m.names ↔ m.contains name = true := by
  induction m with
  | nil => simp [names, contains]
  | cons e m ih =>
    rw [names, List.map_cons, List.mem_cons, contains, find?]
    by_cases hname : e.1 = name
    · simp [hname]
    · rw [if_neg hname]
      exact ⟨fun h => ih.1 (h.resolve_left fun he => hname he.symm), fun h => .inr (ih.2 h)⟩

/-- Leaving out entries leaves out what their names were bound to. -/
theorem find?_filterMap {β : Type} {g : Bytes × α → Option β} (h : m.Ordered) (name : Bytes) :
    find? (m.filterMap fun e => (g e).map (e.1, ·)) name = (m.find? name).bind fun value => g (name, value) := by
  induction m with
  | nil => rfl
  | cons e m ih =>
    obtain ⟨-, hrest⟩ := ordered_cons.1 h
    by_cases hname : e.1 = name
    · subst hname
      rw [find?, if_pos rfl, Option.bind_some]
      cases he : g e with
      | none =>
        rw [List.filterMap_cons_none (by rw [he]; rfl), ih hrest, find?_tail_eq_none h]
        rfl
      | some value => rw [List.filterMap_cons_some (by rw [he]; rfl), find?, if_pos rfl]
    · rw [find?, if_neg hname]
      cases he : g e with
      | none =>
        rw [List.filterMap_cons_none (by rw [he]; rfl), ih hrest]
      | some value =>
        rw [List.filterMap_cons_some (by rw [he]; rfl), find?, if_neg hname, ih hrest]

/-- Changing values changes what names are bound to. -/
theorem find?_map {β : Type} (g : Bytes × α → β) (m : NameMap α) (name : Bytes) :
    find? (m.map fun e => (e.1, g e)) name = (m.find? name).map fun value => g (name, value) := by
  induction m with
  | nil => rfl
  | cons e m ih =>
    rw [List.map_cons, find?, find?]
    split
    · next hname =>
      subst hname
      rfl
    · exact ih

/-- What is kept of an entry is what its name is bound to. -/
theorem find?_kept {β : Type} {g : Bytes × α → Option β} (h : m.Ordered) {e : Bytes × α} (he : e ∈ m) :
    find? (m.filterMap fun e => (g e).map (e.1, ·)) e.1 = g e := by
  rw [find?_filterMap h, find?_of_mem h he, Option.bind_some]

/-- Of names that are bound one after another, each once, the later ones win over those of the map. -/
theorem find?_insertAll {entries : List (Bytes × α)} (h : Ordered entries) (name : Bytes) :
    (m.insertAll entries).find? name = (find? entries name).or (m.find? name) := by
  induction entries generalizing m with
  | nil => rfl
  | cons e entries ih =>
    rw [insertAll, List.foldl_cons]
    change (insertAll _ entries).find? name = _
    rw [ih (ordered_cons.1 h).2, find?]
    split
    · next hname =>
      rw [← hname, find?_tail_eq_none h, find?_insert_self]
      rfl
    · next hname => rw [find?_insert_of_ne _ _ hname]

theorem find?_append (entries more : List (Bytes × α)) (name : Bytes) :
    find? (entries ++ more) name = (find? entries name).or (find? more name) := by
  induction entries with
  | nil => rfl
  | cons e entries ih =>
    rw [List.cons_append, find?, find?]
    split
    · rfl
    · exact ih

/-- Of entries for one name the last one wins, and any of them over those of the map. -/
theorem find?_insertAll_reverse (m : NameMap α) (entries : List (Bytes × α)) (name : Bytes) :
    (m.insertAll entries).find? name = (find? entries.reverse name).or (m.find? name) := by
  induction entries generalizing m with
  | nil => rfl
  | cons e entries ih =>
    have hinsert : (m.insert e.1 e.2).find? name = (find? [e] name).or (m.find? name) := by
      rw [find?]
      split
      · next hname => rw [← hname, find?_insert_self, Option.some_or]
      · next hname => rw [find?_insert_of_ne _ _ hname, find?_nil, Option.none_or]
    rw [insertAll, List.foldl_cons, List.reverse_cons, find?_append, Option.or_assoc, ← hinsert]
    exact ih _

/-- The map of some entries has its names in order, and under each of them the last that was listed. -/
theorem ofList_spec (entries : List (Bytes × α)) :
    (ofList entries).Ordered ∧ ∀ name, (ofList entries).find? name = find? entries.reverse name := by
  refine ⟨(all_nil.insertAll (P := fun _ => True) fun _ _ => trivial).ordered, fun name => ?_⟩
  rw [ofList, find?_insertAll_reverse, find?_nil, Option.or_none]

/-! ## Maps side by side -/

/-- Entries with the same names and related values, one by one. -/
abbrev Paired {β : Type} (R : α → β → Prop) : List (Bytes × α) → List (Bytes × β) → Prop :=
  List.Forall₂ fun e f => e.1 = f.1 ∧ R e.2 f.2

section Paired

variable {β : Type} {R : α → β → Prop} {m' : NameMap β}

theorem Paired.find? (h : Paired R m m') (name : Bytes) : Option.Rel R (m.find? name) (m'.find? name) := by
  induction h with
  | nil => exact .none
  | @cons e f m m' he _ ih =>
    rw [NameMap.find?, NameMap.find?, he.1]
    split
    · exact .some he.2
    · exact ih

/-- Maps in order are paired if related values, or none, are found under every name. -/
theorem paired_of_find? (hm : m.Ordered) (hm' : m'.Ordered)
    (h : ∀ name, Option.Rel R (m.find? name) (m'.find? name)) : Paired R m m' := by
  refine forall₂_of_mem hm hm' (fun e he => ?_) fun f hf => ?_
  · have hfound := h e.1
    rw [find?_of_mem hm he] at hfound
    generalize hf : m'.find? e.1 = found at hfound
    cases hfound with
    | @some _ value hr => exact ⟨(e.1, value), mem_of_find? hf, rfl, hr⟩
  · have hfound := h f.1
    rw [find?_of_mem hm' hf] at hfound
    generalize he : m.find? f.1 = found at hfound
    cases hfound with
    | @some value _ _ => exact ⟨(f.1, value), mem_of_find? he, rfl⟩

/-- Maps in order that bind the same names to the same values are the same. -/
theorem eq_of_find? {m' : NameMap α} (hm : m.Ordered) (hm' : m'.Ordered) (h : ∀ name, m.find? name = m'.find? name) :
    m = m' := by
  have hpaired : Paired Eq m m' := by
    refine paired_of_find? hm hm' fun name => ?_
    rw [h name]
    cases m'.find? name with
    | none => exact .none
    | some value => exact .some rfl
  rw [← List.forall₂_eq_eq_eq]
  exact hpaired.imp fun e f he => Prod.ext he.1 he.2

theorem Paired.insert (h : Paired R m m') {value : α} {value' : β} (hv : R value value') (name : Bytes) :
    Paired R (m.insert name value) (m'.insert name value') := by
  induction h with
  | nil => exact .cons ⟨rfl, hv⟩ .nil
  | @cons e f m m' he hm ih =>
    rw [NameMap.insert, NameMap.insert, he.1]
    split
    · exact .cons ⟨rfl, hv⟩ hm
    split
    · exact .cons ⟨rfl, hv⟩ (.cons ⟨rfl, he.2⟩ hm)
    · exact .cons ⟨rfl, he.2⟩ ih

theorem Paired.insertAll {entries : List (Bytes × α)} {entries' : List (Bytes × β)} (h : Paired R m m')
    (he : Paired R entries entries') : Paired R (m.insertAll entries) (m'.insertAll entries') := by
  induction he generalizing m m' with
  | nil => exact h
  | @cons e f _ _ he _ ih =>
    have hinsert := h.insert he.2 e.1
    rw [NameMap.insertAll, NameMap.insertAll, List.foldl_cons, List.foldl_cons, ← he.1]
    exact ih hinsert

theorem Paired.map {γ δ : Type} {S : γ → δ → Prop} {entries : List (Bytes × α)} {entries' : List (Bytes × β)}
    {f : α → γ} {g : β → δ} (h : Paired R entries entries') (hfg : ∀ x y, R x y → S (f x) (g y)) :
    Paired S (entries.map fun e => (e.1, f e.2)) (entries'.map fun e => (e.1, g e.2)) := by
  rw [Paired, List.forall₂_map_left_iff, List.forall₂_map_right_iff]
  exact h.imp fun e e' he => ⟨he.1, hfg e.2 e'.2 he.2⟩

theorem Paired.all_eq {p : α → Bool} {q : β → Bool} {entries : List (Bytes × α)} {entries' : List (Bytes × β)}
    (h : Paired R entries entries') (hpq : ∀ x y, R x y → p x = q y) :
    (entries.all fun e => p e.2) = entries'.all fun e => q e.2 := by
  induction h with
  | nil => rfl
  | cons he _ ih => rw [List.all_cons, List.all_cons, ih, hpq _ _ he.2]

/-- Only entries of the two maps are paired. -/
theorem Paired.imp_of_mem {S : α → β → Prop} (h : Paired R m m')
    (hrs : ∀ e ∈ m, ∀ f ∈ m', R e.2 f.2 → S e.2 f.2) : Paired S m m' := by
  refine List.forall₂_iff_zip.2 ⟨h.length_eq, fun {e f} hmem => ?_⟩
  obtain ⟨hname, hr⟩ := (List.forall₂_iff_zip.1 h).2 hmem
  obtain ⟨he, hf⟩ := List.of_mem_zip hmem
  exact ⟨hname, hrs e he f hf hr⟩

end Paired

end FormulaTypes.NameMap

namespace FormulaTypes.OrderedMap

variable {α : Type}

theorem contains_eq (m : OrderedMap α) (name : Bytes) : m.contains name = (m.find? name).isSome := rfl

theorem find?_insert (m : OrderedMap α) (key : Bytes) (value : α) (name : Bytes) :
    (m.insert key value).find? name = if key = name then some value else m.find? name :=
  NameMap.find?_insert m.entries key name value

theorem find?_erase (m : OrderedMap α) (key name : Bytes) :
    (m.erase key).find? name = if key = name then none else m.find? name :=
  NameMap.find?_erase m.ordered key name

theorem mem_names_iff {m : OrderedMap α} {name : Bytes} : name ∈ m.names ↔ m.contains name = true :=
  NameMap.mem_names_iff name

end FormulaTypes.OrderedMap
