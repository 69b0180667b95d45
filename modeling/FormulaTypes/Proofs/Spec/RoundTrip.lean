import FormulaTypes.Proofs.NameMap
import FormulaTypes.Proofs.Spec.Grammar
import FormulaTypes.Proofs.Ty.Equality
import FormulaTypes.Proofs.Ty.Sound

/-!
# Type texts read back

The text of a sound type that is not lossy has symbols that spell an equal type with the same text
(`exists_spells`). The proof goes through the type: a list of entries is written as its entries are
(`lexes_joined`), once for fields and once for literals, and what is read for a literal is an equal literal with the
same text (`exists_literalOf`).
-/

namespace FormulaTypes.Spec

open Number (Double)

/-- In front of what may follow, the text is cut into the symbols. -/
def Lexes (text : Bytes) (syms : List Symbol) : Prop :=
  ∀ tail, Breaks tail → symbols (text ++ tail) = syms ++ symbols tail

/-! ## Lists -/

/-- The text of entries, with a comma and a space between them. -/
def joined : List (Bytes × Bytes) → Bytes
  | [] => []
  | [(name, text)] => nameText name ++ 58 :: text
  | (name, text) :: e :: rest => nameText name ++ 58 :: text ++ 44 :: 32 :: joined (e :: rest)

theorem fieldsText_eq_joined (fields : List (Bytes × Ty)) :
    fieldsText fields = joined (fields.map fun e => (e.1, typeText e.2)) := by
  induction fields with
  | nil => rfl
  | cons e fields ih =>
    cases fields with
    | nil => rfl
    | cons f fields =>
      rw [fieldsText, ih]
      rfl

theorem valuesText_eq_joined (values : NameMap Literal) :
    valuesText values = joined (values.map fun e => (e.1, literalText e.2)) := by
  induction values with
  | nil => rfl
  | cons e values ih =>
    cases values with
    | nil => rfl
    | cons f values =>
      rw [valuesText, ih]
      · rfl
      · exact List.cons_ne_nil _ _

section Lists

variable {α β : Type} {l : List β} {name text : β → Bytes} {entry : β → Entry α}

/-- An entry is its name, a colon and its value. -/
theorem symbols_entry {s : Bytes} {syms : List Symbol} (n : Bytes) (h : Lexes s syms) {tail : Bytes}
    (ht : Breaks tail) :
    symbols (nameText n ++ 58 :: (s ++ tail)) = .ident n :: .punct 58 :: (syms ++ symbols tail) := by
  rw [symbols_nameText n (breaks_cons (by decide) _), symbols_punct (by decide), h tail ht]

/-- Entries are cut into the symbols of a list if their values are cut into theirs. -/
theorem lexes_joined (h : ∀ b ∈ l, (entry b).name = name b ∧ Lexes (text b) (entry b).symbols) :
    Lexes (joined (l.map fun b => (name b, text b))) (listed (l.map entry)) := by
  induction l with
  | nil =>
    intro tail _
    rfl
  | cons b l ih =>
    obtain ⟨hname, hlexes⟩ := h b List.mem_cons_self
    intro tail ht
    cases l with
    | nil =>
      simp only [List.map_cons, List.map_nil, joined, listed, List.append_assoc, List.cons_append]
      rw [symbols_entry _ hlexes ht, hname]
    | cons b' l =>
      have hrest := ih (fun b'' hb'' => h b'' (List.mem_cons_of_mem _ hb'')) tail ht
      simp only [List.map_cons, joined, listed, List.append_assoc, List.cons_append] at hrest ⊢
      rw [symbols_entry _ hlexes (breaks_cons (by decide) _), symbols_punct (by decide), symbols_blank (by decide),
        hrest, hname]

/-- The brackets around entries are cut off before and after them. -/
theorem symbols_bracketed {entries : List (Entry α)} {s : Bytes} (h : Lexes s (listed entries)) (tail : Bytes) :
    symbols (91 :: (s ++ 93 :: tail)) = bracketed entries ++ symbols tail := by
  rw [symbols_punct (by decide), h _ (breaks_cons (by decide) _), symbols_punct (by decide), bracketed,
    List.cons_append, List.append_assoc, List.singleton_append]

end Lists

/-! ## Literals -/

/-- What a literal is written as stands for an equal literal with the same text. -/
theorem exists_literalOf {k : Kind} {l : Literal} (h : literalFits k l = true) :
    ∃ l', literalOf k (spelling l) = .ok l' ∧ l'.same l = true ∧ literalText l' = literalText l ∧
      literalFits k l' = true := by
  cases l with
  | number d =>
    obtain ⟨e, hread, hsame, htext⟩ := Double.exists_read_text d
    refine ⟨.number e, ?_, hsame, htext, h⟩
    rw [literalOf, if_pos (show k.isNumeric = true from h), spelling, hread]
  | flag b =>
    obtain rfl : k = .boolean := of_decide_eq_true h
    refine ⟨.flag b, ?_, Literal.same_self _, rfl, h⟩
    cases b <;> decide +kernel
  | text v =>
    simp only [literalFits, Bool.and_eq_true, Bool.not_eq_true', decide_eq_true_eq] at h
    refine ⟨.text v, ?_, Literal.same_self _, rfl, ?_⟩
    · rw [literalOf, if_neg (by simp [h.1]), if_neg h.2, spelling]
    · simp [literalFits, h]

/-- The literals of an enum are written as entries that stand for equal literals with the same texts. -/
theorem exists_literals {k : Kind} {values : NameMap Literal} (h : ∀ e ∈ values, literalFits k e.2 = true) :
    ∃ entries : List (Entry Literal), (∀ e ∈ entries, SpellsLiteral k e) ∧
      Values.entriesAgree (entries.map Entry.bound) values = true ∧
      valuesText (entries.map Entry.bound) = valuesText values ∧
      (∀ e ∈ entries, literalFits k e.value = true) ∧ Lexes (valuesText values) (listed entries) := by
  have hread : ∀ e ∈ values, ∃ l, literalOf k (spelling e.2) = .ok l ∧ l.same e.2 = true ∧
      literalText l = literalText e.2 ∧ literalFits k l = true := fun e he => exists_literalOf (h e he)
  have : Nonempty Literal := ⟨.flag true⟩
  choose! lit hlit using hread
  refine ⟨values.map fun e => ⟨e.1, [.ident (spelling e.2)], lit e⟩, ?_, ?_, ?_, ?_, ?_⟩
  · intro e he
    obtain ⟨f, hf, rfl⟩ := List.mem_map.1 he
    exact ⟨_, rfl, (hlit f hf).1⟩
  · rw [Values.entriesAgree_iff, List.map_map, List.forall₂_map_left_iff, List.forall₂_same]
    intro e he
    exact ⟨rfl, (hlit e he).2.1⟩
  · rw [valuesText_eq_joined, valuesText_eq_joined, List.map_map, List.map_map]
    congr 1
    refine List.map_congr_left fun e he => ?_
    exact congrArg (Prod.mk e.1) (hlit e he).2.2.1
  · intro e he
    obtain ⟨f, hf, rfl⟩ := List.mem_map.1 he
    exact (hlit f hf).2.2.2
  · rw [valuesText_eq_joined]
    exact lexes_joined fun e _ => ⟨rfl, fun tail ht => symbols_literalText e.2 ht⟩

/-! ## Types -/

/-- The type is spelt by the symbols of the text of `t`: it equals `t` and has the same text, which tells all of it. -/
structure Told (t : Ty) (syms : List Symbol) (u : Ty) : Prop where
  spells : Spells syms u
  equal : u.equal t = true
  text : typeText u = typeText t
  lossless : isLossy u = false
  lexes : Lexes (typeText t) syms

theorem anyLossy_eq_false_iff {fields : List (Bytes × Ty)} :
    anyLossy fields = false ↔ ∀ e ∈ fields, isLossy e.2 = false := by
  induction fields with
  | nil => simp [anyLossy]
  | cons e fields ih =>
    obtain ⟨name, t⟩ := e
    simp [anyLossy, ih]

/-- The fields of an aggregate are written as entries that stand for equal types with the same texts. -/
theorem exists_fields {fields : List (Bytes × Ty)} (h : ∀ e ∈ fields, ∃ syms u, Told e.2 syms u) :
    ∃ entries : List (Entry Ty), (∀ e ∈ entries, Spells e.symbols e.value) ∧
      FieldsAlike (entries.map Entry.bound) fields ∧ fieldsText (entries.map Entry.bound) = fieldsText fields ∧
      anyLossy (entries.map Entry.bound) = false ∧ Lexes (fieldsText fields) (listed entries) := by
  have : Nonempty Ty := ⟨Ty.error⟩
  choose! syms u hu using h
  refine ⟨fields.map fun e => ⟨e.1, syms e, u e⟩, ?_, ?_, ?_, ?_, ?_⟩
  · intro e he
    obtain ⟨f, hf, rfl⟩ := List.mem_map.1 he
    exact (hu f hf).spells
  · rw [FieldsAlike, List.map_map, List.forall₂_map_left_iff, List.forall₂_same]
    intro e he
    exact ⟨rfl, (hu e he).equal⟩
  · rw [fieldsText_eq_joined, fieldsText_eq_joined, List.map_map, List.map_map]
    congr 1
    refine List.map_congr_left fun e he => ?_
    exact congrArg (Prod.mk e.1) (hu e he).text
  · rw [anyLossy_eq_false_iff, List.map_map]
    intro e he
    obtain ⟨f, hf, rfl⟩ := List.mem_map.1 he
    exact (hu f hf).lossless
  · rw [fieldsText_eq_joined]
    exact lexes_joined fun e he => ⟨rfl, (hu e he).lexes⟩

/-- The letters of all kinds but records, tables and enums are plain. -/
theorem isPlain_letter {k : Kind} (hv : k.isValid = true) (hk : k ≠ .record ∧ k ≠ .table ∧ k ≠ .enum) :
    isPlain k.letter = true := by
  cases k with
  | invalid | beyond => cases hv
  | record | table | enum => simp at hk
  | _ => decide

theorem lexes_letter {k : Kind} (hv : k.isValid = true) (hk : k ≠ .record ∧ k ≠ .table ∧ k ≠ .enum) :
    Lexes [k.letter] [.ident [k.letter]] := by
  intro tail ht
  exact symbols_word (by simpa using isPlain_letter hv hk) (List.cons_ne_nil _ _) ht

/-- A type that goes without further parts is told by its letter. -/
theorem told_letter {k : Kind} {form : Form Ty} (hk : k ≠ .record ∧ k ≠ .table) (hform : Ty.plainForm? k = some form)
    (sources : NameSet) (htext : ∀ sources, typeText (.node form none sources) = [k.letter])
    (hl : isLossy (Ty.ofForm form) = false) : Told (.node form none sources) [.ident [k.letter]] (Ty.ofForm form) := by
  have hvalid : k.isValid = true := by
    cases k <;> first | rfl | cases hform
  have henum : k ≠ .enum := by
    rintro rfl
    cases hform
  refine ⟨.plain hk hform, ?_, ?_, hl, ?_⟩
  · exact Ty.equal_of_form_eq rfl rfl
  · rw [Ty.ofForm, htext, htext]
  · rw [htext]
    exact lexes_letter hvalid ⟨hk.1, hk.2, henum⟩

/-- The mark of an aggregate is one symbol. -/
theorem symbols_mark (shape : Shape) (rest : Bytes) :
    symbols (shape.kind.letter :: 91 :: rest) = mark shape :: symbols (91 :: rest) := by
  cases shape with
  | record | table => exact symbols_punct (by decide)
  | file | largeImage => exact lexes_letter (by decide) (by decide) _ (breaks_cons (by decide) _)

/-- An enum is told by its literals. -/
theorem exists_told_enum {k : Kind} {values : Values} (sources : NameSet) (hk : k.isPrimitive = true)
    (h : ∀ e ∈ values.entries, literalFits k e.2 = true) :
    ∃ syms u, Told (.node (.enum k values) none sources) syms u := by
  obtain ⟨entries, hspells, hagree, htext, hfits, hlexes⟩ := exists_literals h
  have hlist : (OrderedMap.ofList (entries.map Entry.bound)).entries = entries.map Entry.bound :=
    NameMap.ofList_eq_self (NameMap.ordered_of_names_eq values.ordered
      (NameMap.names_eq_of_forall₂ (fun _ _ he => he.1) (Values.entriesAgree_iff.1 hagree)))
  have hletter : Lexes [k.letter] [.ident [k.letter]] := by
    refine lexes_letter ?_ ?_ <;> cases k <;> first | decide | cases hk
  refine ⟨_, _, .enum hk hspells, ?_, ?_, ?_, ?_⟩
  · refine Ty.equal_iff.2 ⟨.enum ?_, rfl⟩
    rwa [Values.agree, hlist]
  · rw [Ty.ofForm, typeText, typeText, hlist, htext]
  · rw [Ty.ofForm, isLossy, Option.isSome_none, Bool.false_or, hlist, List.any_eq_false]
    intro e he
    obtain ⟨f, hf, rfl⟩ := List.mem_map.1 he
    simpa [Entry.bound] using hfits f hf
  · intro tail _
    have hhead : ∀ rest, symbols (k.letter :: 91 :: rest) = .ident [k.letter] :: symbols (91 :: rest) :=
      fun rest => hletter (91 :: rest) (breaks_cons (by decide) _)
    rw [typeText]
    simp only [List.cons_append, List.append_assoc, List.nil_append]
    rw [symbols_punct (by decide), hhead, symbols_bracketed hlexes]

/-- An eager aggregate with brackets is told by its fields. -/
theorem exists_told_fields {shape : Shape} {fields : List (Bytes × Ty)} (sources : NameSet)
    (ho : NameMap.Ordered fields) (h : ∀ e ∈ fields, ∃ syms u, Told e.2 syms u)
    (hb : fields ≠ [] ∨ shape = .record ∨ shape = .table) :
    ∃ syms u, Told (.node (.aggregate shape false fields) none sources) syms u := by
  have hbrackets : ∀ {fs : List (Bytes × Ty)} (srcs : NameSet), (fs ≠ [] ∨ shape = .record ∨ shape = .table) →
      typeText (.node (.aggregate shape false fs) none srcs) = shape.kind.letter :: 91 :: fieldsText fs ++ [93] := by
    intro fs srcs hfs
    rw [typeText]
    · rintro rfl rfl
      simp at hfs
    · rintro rfl rfl
      simp at hfs
  obtain ⟨entries, hspells, halike, htext, hlossless, hlexes⟩ := exists_fields h
  have hlist : NameMap.ofList (entries.map Entry.bound) = entries.map Entry.bound :=
    NameMap.ofList_eq_self (NameMap.ordered_of_names_eq ho (NameMap.names_eq_of_forall₂ (fun _ _ he => he.1) halike))
  have hb' : entries.map Entry.bound ≠ [] ∨ shape = .record ∨ shape = .table := by
    refine hb.imp_left fun hne he => hne ?_
    rw [he] at halike
    cases halike
    rfl
  refine ⟨mark shape :: bracketed entries, _, .aggregate hspells, ?_, ?_, ?_, ?_⟩
  · rw [hlist]
    exact Ty.equal_iff.2 ⟨.aggregate halike, rfl⟩
  · rw [hlist, Ty.ofForm, hbrackets _ hb', hbrackets _ hb, htext]
  · rw [hlist, Ty.ofForm, isLossy, hlossless]
    rfl
  · intro tail _
    rw [hbrackets _ hb]
    simp only [List.cons_append, List.append_assoc, List.nil_append]
    rw [symbols_mark, symbols_bracketed hlexes]

/-- The text of a sound type that is not lossy tells an equal type. -/
theorem exists_told {t : Ty} (h : t.Sound) (hl : isLossy t = false) : ∃ syms u, Told t syms u := by
  induction t using Ty.induction with
  | step t ih =>
    have hvalid := h.valid
    have hordered := h.ordered
    obtain ⟨form, token, sources⟩ := t
    cases form with
    | leaf k hk =>
      obtain rfl : token = none := by simpa [isLossy] using hl
      have hk' : k.isValid = true := Ty.kind_isValid hvalid
      have hform : Ty.plainForm? k = some (.leaf k hk) := by
        rw [Ty.plainForm?, dif_pos hk, if_pos hk']
      refine ⟨_, _, told_letter ?_ hform sources ?_ rfl⟩
      · constructor <;> rintro rfl <;> cases hk
      · intro sources
        rw [typeText]
    | enum k values =>
      simp only [isLossy, Bool.or_eq_false_iff, List.any_eq_false] at hl
      obtain rfl : token = none := by simpa using hl.1
      refine exists_told_enum sources (Ty.superkind_isPrimitive hvalid rfl) ?_
      intro e he
      simpa using hl.2 e he
    | choices choice fields =>
      simp only [isLossy, Bool.or_eq_false_iff] at hl
      obtain rfl : token = none := by simpa using hl.1
      obtain rfl : fields = [] := by simpa using hl.2
      refine ⟨_, _, told_letter (k := choice.kind) ?_ ?_ sources ?_ ?_⟩
      · cases choice <;> decide
      · cases choice <;> rfl
      · intro sources
        rw [typeText]
      · rfl
    | aggregate shape optional fields =>
      simp only [isLossy, Bool.or_eq_false_iff] at hl
      obtain rfl : token = none := by simpa using hl.1.1
      obtain rfl : optional = false := hl.1.2
      have hfields : ∀ e ∈ fields, ∃ syms u, Told e.2 syms u := by
        intro e he
        have hpart : e.2 ∈ (Ty.node (.aggregate shape false fields) none sources).parts := List.mem_map_of_mem he
        exact ih e.2 hpart (h.part hpart) (anyLossy_eq_false_iff.1 hl.2 e he)
      by_cases hb : fields ≠ [] ∨ shape = .record ∨ shape = .table
      · exact exists_told_fields sources hordered hfields hb
      · simp only [not_or, not_not] at hb
        obtain ⟨rfl, hrecord, htable⟩ := hb
        refine ⟨_, _, told_letter (k := shape.kind) ?_ ?_ sources ?_ ?_⟩
        · cases shape <;> simp_all [Shape.kind]
        · cases shape <;> rfl
        · intro sources
          cases shape <;> first | contradiction | rw [typeText]
        · rfl
    | lazy isTable optional provider =>
      simp only [isLossy, Bool.or_eq_false_iff] at hl
      obtain ⟨p, hp⟩ := Ty.exists_provider hvalid (by cases isTable <;> rfl)
      obtain rfl : provider = some p := hp
      simp at hl

/-- A text that tells a type reads back to what it tells. -/
theorem Told.parse {t u : Ty} {syms : List Symbol} (h : Told t syms u) : Spec.parse (typeText t) = .ok u := by
  refine parse_of_spells h.spells ?_
  have := h.lexes [] (.inl rfl)
  rwa [List.append_nil, symbols_nil] at this

/-- The text of a type reads back: it stands for an equal type, and that type has the same text again. -/
theorem parse_format {t : Ty} {s : Bytes} (ht : t.Sound) (hs : format t = .ok s) :
    ∃ u, parse s = .ok u ∧ u.equal t = true ∧ format u = .ok s := by
  unfold format at hs
  split at hs
  · cases hs
  · next hl =>
    cases hs
    obtain ⟨syms, u, hu⟩ := exists_told ht (by simpa using hl)
    refine ⟨u, parse_of_spells hu.spells ?_, hu.equal, ?_⟩
    · have := hu.lexes [] (.inl rfl)
      rwa [List.append_nil, symbols_nil] at this
    · rw [format, if_neg (by simp [hu.lossless]), hu.text]

/-- A table of a file and an enum of numbers, under names that have to be quoted. -/
def quotedNames : Ty :=
  .ofForm (.aggregate .table false
    [([], .ofForm (.aggregate .file false [])),
     (Bytes.ofString "'", .ofForm (.enum .number
       (.ofList [(Bytes.ofString ", ", .number ⟨0x3FB999999999999A⟩), (Bytes.ofString "n", .number Double.nan)])))])

theorem parse_format_quotedNames :
    quotedNames.Sound ∧ format quotedNames = .ok (Bytes.ofString "*['':F, '''':%n[', ':0.1, n:NaN]]") ∧
      ∃ u, parse (Bytes.ofString "*['':F, '''':%n[', ':0.1, n:NaN]]") = .ok u ∧ u.equal quotedNames = true ∧
        format u = .ok (Bytes.ofString "*['':F, '''':%n[', ':0.1, n:NaN]]") := by
  have hsound : quotedNames.Sound := by decide +kernel
  have htext : typeText quotedNames = Bytes.ofString "*['':F, '''':%n[', ':0.1, n:NaN]]" := by decide +kernel
  have hformat : format quotedNames = .ok (Bytes.ofString "*['':F, '''':%n[', ':0.1, n:NaN]]") := by
    rw [format, if_neg (by decide +kernel), htext]
  exact ⟨hsound, hformat, parse_format hsound hformat⟩

end FormulaTypes.Spec
