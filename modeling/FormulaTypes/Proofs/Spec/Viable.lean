import FormulaTypes.Proofs.Spec.Offsets

/-!
# Where errors in type texts point

A reader looks one lexeme ahead and fails at a lexeme: at a name that is not closed, or where it has taken symbols that
can still be completed (`Halts`). This is kept along every step of a reader (`Reaches`):

* a step takes one symbol more, or fails at the lexeme that it sees (`reaches_advance`, `reaches_expect`,
  `reaches_readName`);
* a reader that is called in the middle of another one fails where the other may fail, since what it could have taken
  can be completed for both (`reaches_reader`);
* so the reader of types fails only behind symbols that some type starts with (`tracks_readType`).

With the offsets of lexemes this says what the offset of a parse error means (`parse_error_offset`).
-/

namespace FormulaTypes.Spec

/-! ## Where a reader fails -/

/-- The lexemes that were taken have the symbols. -/
def Past (syms : List Symbol) (ls rest : List Lexeme) : Prop :=
  ∃ taken, ls = taken ++ rest ∧ taken.map Lexeme.symbol = syms

/-- The symbols can be completed in the language. -/
def Viable (L : List Symbol → Prop) (syms : List Symbol) : Prop := ∃ more, L (syms ++ more)

/-- The problem is that a name is not closed, and stands there, or it stands behind symbols that can be completed. -/
def Halts (L : List Symbol → Prop) (origin : List Lexeme) (p : Problem) : Prop :=
  (p.cause = .unclosedQuote ∧ ⟨.unclosed, p.offset⟩ ∈ origin) ∨
    (p.cause ≠ .unclosedQuote ∧ ∃ syms rest, Past syms origin rest ∧ (peek rest).offset = p.offset ∧ Viable L syms)

/-- A part of a reader that was given the lexemes `origin` has a result of the kind, or fails where it may. -/
def Reaches (L : List Symbol → Prop) (origin : List Lexeme) {α : Type} (Q : α → Prop) (m : Except Problem α) : Prop :=
  (∀ a, m = .ok a → Q a) ∧ ∀ p, m = .error p → Halts L origin p

section Steps

variable {L : List Symbol → Prop} {origin ls rest : List Lexeme} {front syms : List Symbol}

theorem past_start (ls : List Lexeme) : Past [] ls ls := ⟨[], rfl, rfl⟩

theorem Past.suffix (h : Past syms ls rest) : rest <:+ ls := by
  obtain ⟨taken, rfl, -⟩ := h
  exact List.suffix_append _ _

theorem Past.trans (hfront : Past front origin ls) (h : Past syms ls rest) : Past (front ++ syms) origin rest := by
  obtain ⟨before, rfl, rfl⟩ := hfront
  obtain ⟨taken, rfl, rfl⟩ := h
  exact ⟨before ++ taken, (List.append_assoc _ _ _).symm, List.map_append⟩

theorem Viable.whole (h : L syms) : Viable L syms := ⟨[], by rwa [List.append_nil]⟩

theorem Viable.shorten (h : Viable L syms) (hfront : front <+: syms) : Viable L front := by
  obtain ⟨more, h⟩ := h
  obtain ⟨back, rfl⟩ := hfront
  exact ⟨back ++ more, by rwa [← List.append_assoc]⟩

theorem Viable.start (h : Viable L syms) : Viable L [] := h.shorten List.nil_prefix

section Outcomes

variable {α β : Type} {Q : α → Prop} {R : β → Prop}

theorem reaches_ok {a : α} (h : Q a) : Reaches L origin Q (.ok a) := by
  refine ⟨?_, ?_⟩
  · rintro b ⟨⟩
    exact h
  · rintro p ⟨⟩

theorem Reaches.bind {m : Except Problem α} {f : α → Except Problem β} (hm : Reaches L origin Q m)
    (hf : ∀ a, Q a → Reaches L origin R (f a)) : Reaches L origin R (m >>= f) := by
  cases m with
  | ok a => exact hf a (hm.1 a rfl)
  | error p =>
    refine ⟨?_, ?_⟩
    · rintro b ⟨⟩
    · rintro p ⟨⟩
      exact hm.2 p rfl

theorem Reaches.imp {Q' : α → Prop} {m : Except Problem α} (hm : Reaches L origin Q m) (h : ∀ a, Q a → Q' a) :
    Reaches L origin Q' m :=
  ⟨fun a ha => h a (hm.1 a ha), hm.2⟩

/-- A failure at the next lexeme is one behind the symbols before. -/
theorem reaches_error (hpast : Past front origin ls) (hviable : Viable L front) {cause : Cause}
    (hcause : cause ≠ .unclosedQuote) : Reaches L origin Q (.error ⟨(peek ls).offset, cause⟩) := by
  refine ⟨?_, ?_⟩
  · rintro a ⟨⟩
  · rintro p ⟨⟩
    exact .inr ⟨hcause, front, ls, hpast, rfl, hviable⟩

theorem reaches_unclosed {offset : Nat} (h : ⟨.unclosed, offset⟩ ∈ origin) :
    Reaches L origin Q (.error ⟨offset, .unclosedQuote⟩) := by
  refine ⟨?_, ?_⟩
  · rintro a ⟨⟩
  · rintro p ⟨⟩
    exact .inl ⟨rfl, h⟩

end Outcomes

/-- To advance takes the symbol that was seen, or finds that the next name is not closed. -/
theorem reaches_advance (hpast : Past front origin ls) {s : Symbol} (hs : (peek ls).symbol = s) (hf : s ≠ .finish) :
    Reaches L origin (Past (front ++ [s]) origin) (advance ls) := by
  cases ls with
  | nil => exact absurd hs.symm hf
  | cons l ls =>
    have hnext : Past (front ++ [s]) origin ls := hpast.trans ⟨[l], rfl, congrArg ([·]) hs⟩
    rw [advance, List.tail_cons]
    split
    · exact reaches_unclosed (hnext.suffix.subset List.mem_cons_self)
    · exact reaches_ok hnext

theorem reaches_expect (c : UInt8) (hpast : Past front origin ls) (hviable : Viable L front) :
    Reaches L origin (Past (front ++ [.punct c]) origin) (expect c ls) := by
  rw [expect]
  split
  · next hs => exact reaches_advance hpast hs (by simp)
  · exact reaches_error hpast hviable (by simp)

theorem reaches_readName (hpast : Past front origin ls) (hviable : Viable L front) :
    Reaches L origin (fun r => Past (front ++ [.ident r.1]) origin r.2) (readName ls) := by
  rw [readName]
  split
  · next name hs =>
    refine (reaches_advance hpast hs (by simp)).bind fun rest hrest => ?_
    exact reaches_ok hrest
  · exact reaches_error hpast hviable (by simp)

end Steps

/-- A reader leaves an ending of its lexemes, or fails behind symbols that can be completed to some that stand for a
value. -/
def Tracks {α : Type} (reader : Reader α) (P : List Symbol → α → Prop) : Prop :=
  ∀ ls, Reaches (fun syms => ∃ a, P syms a) ls (fun r => r.2 <:+ ls) (reader ls)

/-- In the middle of another reader, a reader fails where the other one may fail. -/
theorem reaches_reader {α : Type} {reader : Reader α} {P : List Symbol → α → Prop} {L : List Symbol → Prop}
    {origin ls : List Lexeme} {front : List Symbol} (htracks : Tracks reader P) (htakes : Takes reader P)
    (hpast : Past front origin ls) (hviable : ∀ syms a, P syms a → Viable L (front ++ syms)) :
    Reaches L origin (fun r => ∃ syms, P syms r.1 ∧ Past (front ++ syms) origin r.2) (reader ls) := by
  refine ⟨?_, ?_⟩
  · rintro ⟨a, rest⟩ hread
    obtain ⟨taken, rfl⟩ := (htracks ls).1 _ hread
    obtain ⟨syms, hsyms, hp⟩ := htakes _ a rest hread
    rw [List.map_append] at hsyms
    exact ⟨syms, hp, hpast.trans ⟨taken, rfl, List.append_cancel_right hsyms⟩⟩
  · intro p hread
    rcases (htracks ls).2 p hread with ⟨hcause, hopen⟩ | ⟨hcause, syms, rest, hrest, hoffset, more, a, hp⟩
    · exact .inl ⟨hcause, hpast.suffix.subset hopen⟩
    · -- what the reader could have taken from there on completes the whole
      have hmore := hviable (syms ++ more) a hp
      rw [← List.append_assoc] at hmore
      exact .inr ⟨hcause, front ++ syms, rest, hpast.trans hrest, hoffset, hmore.shorten (List.prefix_append _ _)⟩

/-- After the first symbol, what another reader takes. -/
theorem reaches_rest {α : Type} {reader : Reader α} {P : List Symbol → α → Prop} {s : Symbol} {origin ls : List Lexeme}
    (htracks : Tracks reader fun syms a => P (s :: syms) a) (htakes : Takes reader fun syms a => P (s :: syms) a)
    (hpast : Past [s] origin ls) :
    Reaches (fun syms => ∃ a, P syms a) origin (fun r => r.2 <:+ origin) (reader ls) := by
  have hviable : ∀ syms a, P (s :: syms) a → Viable (fun syms => ∃ a, P syms a) ([s] ++ syms) := by
    intro syms a h
    exact .whole ⟨a, h⟩
  refine (reaches_reader htracks htakes hpast hviable).imp ?_
  rintro r ⟨syms, -, hrest⟩
  exact hrest.suffix

/-! ## Lists -/

section Lists

variable {α : Type} {item : Reader α} {P : List Symbol → α → Prop}

/-- The symbols are those of entries up to the closing bracket. -/
def ListsEntries (P : List Symbol → α → Prop) (syms : List Symbol) (bound : List (Bytes × α)) : Prop :=
  ∃ entries : List (Entry α), entries ≠ [] ∧ syms = listed entries ++ [.punct 93] ∧
    bound = entries.map Entry.bound ∧ ∀ e ∈ entries, P e.symbols e.value

/-- The symbols are those of entries in brackets. -/
def BracketsEntries (P : List Symbol → α → Prop) (syms : List Symbol) (bound : List (Bytes × α)) : Prop :=
  ∃ entries : List (Entry α), syms = bracketed entries ∧ bound = entries.map Entry.bound ∧
    ∀ e ∈ entries, P e.symbols e.value

variable {syms more : List Symbol} {a : α} {bound : List (Bytes × α)}

theorem listsEntries_last (name : Bytes) (h : P syms a) :
    ListsEntries P ([.ident name, .punct 58] ++ syms ++ [.punct 93]) [(name, a)] :=
  ⟨[⟨name, syms, a⟩], List.cons_ne_nil _ _, rfl, rfl, List.forall_mem_singleton.2 h⟩

theorem listsEntries_cons (name : Bytes) (h : P syms a) (hmore : ListsEntries P more bound) :
    ListsEntries P ([.ident name, .punct 58] ++ syms ++ [.punct 44] ++ more) ((name, a) :: bound) := by
  obtain ⟨entries, hne, rfl, rfl, hentries⟩ := hmore
  obtain ⟨f, entries, rfl⟩ := List.exists_cons_of_ne_nil hne
  refine ⟨⟨name, syms, a⟩ :: f :: entries, List.cons_ne_nil _ _, ?_, rfl, List.forall_mem_cons.2 ⟨h, hentries⟩⟩
  simp [listed]

theorem bracketsEntries_cons (h : ListsEntries P syms bound) : BracketsEntries P ([.punct 91] ++ syms) bound := by
  obtain ⟨entries, -, rfl, rfl, hentries⟩ := h
  exact ⟨entries, rfl, rfl, hentries⟩

/-- An entry can be completed by the closing bracket. -/
theorem viable_entry (name : Bytes) (h : P syms a) :
    Viable (fun syms => ∃ bound, ListsEntries P syms bound) ([.ident name, .punct 58] ++ syms) :=
  ⟨_, _, listsEntries_last name h⟩

/-- A reader of entries, one by one: the next one can be completed, or the list closed after it. -/
theorem tracks_readEntries (htakes : Takes item P) (htracks : Tracks item P) (hsome : ∃ syms a, P syms a)
    (fuel : Nat) : Tracks (readEntries item fuel) (ListsEntries P) := by
  obtain ⟨syms₀, a₀, h₀⟩ := hsome
  induction fuel with
  | zero => exact fun ls => reaches_error (past_start ls) (viable_entry [] h₀).start (by simp)
  | succ fuel ih =>
    intro ls
    rw [readEntries]
    refine (reaches_readName (past_start ls) (viable_entry [] h₀).start).bind ?_
    rintro ⟨name, ls₁⟩ hname
    refine (reaches_expect 58 hname ((viable_entry name h₀).shorten ⟨_, rfl⟩)).bind fun ls₂ hcolon => ?_
    refine (reaches_reader htracks htakes hcolon fun syms a h => viable_entry name h).bind ?_
    rintro ⟨value, ls₃⟩ ⟨syms, hvalue, hitem⟩
    dsimp only
    split
    · next hs =>
      refine (reaches_advance hitem hs (by simp)).bind fun ls₄ hcomma => ?_
      have hviable : ∀ more bound, ListsEntries P more bound →
          Viable (fun syms => ∃ bound, ListsEntries P syms bound)
            ([.ident name, .punct 58] ++ syms ++ [.punct 44] ++ more) := by
        intro more bound hmore
        exact .whole ⟨_, listsEntries_cons name hvalue hmore⟩
      refine (reaches_reader ih (takes_readEntries htakes fuel) hcomma hviable).bind ?_
      rintro ⟨entries, ls₅⟩ ⟨more, -, hmore⟩
      exact reaches_ok hmore.suffix
    · refine (reaches_expect 93 hitem (viable_entry name hvalue)).bind fun ls₄ hclose => ?_
      exact reaches_ok hclose.suffix

theorem tracks_readList (htakes : Takes item P) (htracks : Tracks item P) (hsome : ∃ syms a, P syms a) :
    Tracks (readList item) (BracketsEntries P) := by
  have hempty : Viable (fun syms => ∃ bound, BracketsEntries P syms bound) [.punct 91] :=
    ⟨[.punct 93], [], [], rfl, rfl, List.forall_mem_nil _⟩
  have hviable : ∀ syms bound, ListsEntries P syms bound →
      Viable (fun syms => ∃ bound, BracketsEntries P syms bound) ([.punct 91] ++ syms) := by
    intro syms bound h
    exact .whole ⟨bound, bracketsEntries_cons h⟩
  intro ls
  rw [readList]
  refine (reaches_expect 91 (past_start ls) hempty.start).bind fun ls₁ hbracket => ?_
  split
  · next hs =>
    refine (reaches_advance hbracket hs (by simp)).bind fun ls₂ hclose => ?_
    exact reaches_ok hclose.suffix
  · refine (reaches_reader (tracks_readEntries htakes htracks hsome ls₁.length) (takes_readEntries htakes ls₁.length)
      hbracket hviable).imp ?_
    rintro r ⟨syms, -, hrest⟩
    exact hrest.suffix

end Lists

/-! ## Literals -/

/-- Every kind of enum has a literal. -/
theorem exists_literalOf_eq_ok (k : Kind) : ∃ text l, literalOf k text = .ok l := by
  by_cases hnumeric : k.isNumeric = true
  · obtain ⟨d, hread, -⟩ := Number.Double.exists_read_text .nan
    exact ⟨Number.Double.nan.text, .number d, by rw [literalOf, if_pos hnumeric, hread]⟩
  by_cases hboolean : k = .boolean
  · exact ⟨Bytes.ofString "1", .flag true, by rw [hboolean]; decide +kernel⟩
  · exact ⟨[], .text [], by rw [literalOf, if_neg hnumeric, if_neg hboolean]⟩

theorem tracks_readLiteral (k : Kind) :
    Tracks (readLiteral k) fun syms l => ∃ text, syms = [.ident text] ∧ literalOf k text = .ok l := by
  obtain ⟨text₀, l₀, h₀⟩ := exists_literalOf_eq_ok k
  have hviable : Viable (fun syms => ∃ l text, syms = [.ident text] ∧ literalOf k text = .ok l) [] :=
    ⟨_, l₀, text₀, rfl, h₀⟩
  intro ls
  rw [readLiteral]
  refine (reaches_readName (past_start ls) hviable).bind ?_
  rintro ⟨text, rest⟩ hname
  dsimp only
  split
  · exact reaches_ok hname.suffix
  · -- the text was taken, but the problem is told at its start
    exact reaches_error (past_start ls) hviable (by simp)

/-! ## Types -/

theorem exists_spells : ∃ syms t, Spells syms t :=
  ⟨mark .record :: bracketed [], _, .aggregate (List.forall_mem_nil _)⟩

theorem tracks_readFields {item : Reader Ty} (htakes : Takes item Spells) (htracks : Tracks item Spells)
    (shape : Shape) : Tracks (readFields item shape) fun syms t => Spells (mark shape :: syms) t := by
  have hviable : ∀ syms bound, BracketsEntries Spells syms bound →
      Viable (fun syms => ∃ t, Spells (mark shape :: syms) t) ([] ++ syms) := by
    rintro _ _ ⟨entries, rfl, rfl, hentries⟩
    exact .whole ⟨_, .aggregate hentries⟩
  intro ls
  rw [readFields]
  refine (reaches_reader (tracks_readList htakes htracks exists_spells) (takes_readList htakes) (past_start ls)
    hviable).bind ?_
  rintro ⟨entries, rest⟩ ⟨syms, -, hrest⟩
  exact reaches_ok hrest.suffix

theorem tracks_readEnum : Tracks readEnum fun syms t => Spells (.punct 37 :: syms) t := by
  have hviable : ∀ k : Kind, k.isPrimitive = true → ∀ syms bound,
      BracketsEntries (fun syms l => ∃ text, syms = [.ident text] ∧ literalOf k text = .ok l) syms bound →
      Viable (fun syms => ∃ t, Spells (.punct 37 :: syms) t) ([.ident [k.letter]] ++ syms) := by
    rintro k hk _ _ ⟨entries, rfl, rfl, hentries⟩
    exact .whole ⟨_, .enum hk hentries⟩
  have hsome : Viable (fun syms => ∃ t, Spells (.punct 37 :: syms) t) [] :=
    (hviable .number rfl _ _ ⟨[], rfl, rfl, List.forall_mem_nil _⟩).start
  intro ls
  rw [readEnum]
  refine (reaches_readName (past_start ls) hsome).bind ?_
  rintro ⟨text, ls₁⟩ hname
  dsimp only
  split
  · next k hk =>
    obtain ⟨hletter, hprimitive⟩ := Option.filter_eq_some_iff.1 hk
    obtain rfl := eq_letter_of_ofLetter? hletter
    obtain ⟨text₀, l₀, h₀⟩ := exists_literalOf_eq_ok k
    refine (reaches_reader (tracks_readList (takes_readLiteral k) (tracks_readLiteral k) ⟨_, l₀, text₀, rfl, h₀⟩)
      (takes_readList (takes_readLiteral k)) hname (hviable k hprimitive)).bind ?_
    rintro ⟨entries, rest⟩ ⟨syms, -, hrest⟩
    exact reaches_ok hrest.suffix
  · exact reaches_error (past_start ls) hsome (by simp)

/-- Kinds that a letter stands for are plain, apart from enums and lazy types. -/
theorem plainForm?_ne_none {text : Bytes} {k : Kind} (h : Kind.ofLetter? text = some k) (henum : k ≠ .enum)
    (hrecord : k ≠ .lazyRecord) (htable : k ≠ .lazyTable) : Ty.plainForm? k ≠ none := by
  have hvalid : k.isValid = true := by
    have hfound := List.find?_some h
    simp only [Bool.and_eq_true] at hfound
    exact hfound.1
  cases k with
  | enum => exact absurd rfl henum
  | lazyRecord => exact absurd rfl hrecord
  | lazyTable => exact absurd rfl htable
  | invalid | beyond => cases hvalid
  | _ => exact Option.some_ne_none _

theorem reaches_readLettered {item : Reader Ty} (htakes : Takes item Spells) (htracks : Tracks item Spells)
    {text : Bytes} {ls : List Lexeme} (hs : (peek ls).symbol = .ident text) :
    Reaches (fun syms => ∃ t, Spells syms t) ls (fun r => r.2 <:+ ls) (readLettered item text ls) := by
  have hviable : Viable (fun syms => ∃ t, Spells syms t) [] := exists_spells
  unfold readLettered
  split
  · exact reaches_error (past_start ls) hviable (by simp)
  · exact reaches_error (past_start ls) hviable (by simp)
  · exact reaches_error (past_start ls) hviable (by simp)
  · exact reaches_error (past_start ls) hviable (by simp)
  · exact reaches_error (past_start ls) hviable (by simp)
  · exact reaches_error (past_start ls) hviable (by simp)
  · next k _ _ henum hrecord htable hk =>
    obtain rfl := eq_letter_of_ofLetter? hk
    refine (reaches_advance (past_start ls) hs (by simp)).bind fun ls₁ hletter => ?_
    split
    · exact reaches_rest (tracks_readFields htakes htracks .file) (takes_readFields htakes .file) hletter
    · exact reaches_rest (tracks_readFields htakes htracks .largeImage) (takes_readFields htakes .largeImage) hletter
    · split
      · exact reaches_ok hletter.suffix
      · next hnone => exact absurd hnone (plainForm?_ne_none hk henum hrecord htable)

theorem tracks_readType (fuel : Nat) : Tracks (readType fuel) Spells := by
  have hviable : Viable (fun syms => ∃ t, Spells syms t) [] := exists_spells
  induction fuel with
  | zero => exact fun ls => reaches_error (past_start ls) hviable (by simp)
  | succ fuel ih =>
    have htakes := takes_readType fuel
    intro ls
    rw [readType]
    split
    · next hs =>
      refine (reaches_advance (past_start ls) hs (by simp)).bind fun rest hmark => ?_
      exact reaches_rest (tracks_readFields htakes ih .record) (takes_readFields htakes .record) hmark
    · next hs =>
      refine (reaches_advance (past_start ls) hs (by simp)).bind fun rest hmark => ?_
      exact reaches_rest (tracks_readFields htakes ih .table) (takes_readFields htakes .table) hmark
    · next hs =>
      refine (reaches_advance (past_start ls) hs (by simp)).bind fun rest hmark => ?_
      exact reaches_rest tracks_readEnum takes_readEnum hmark
    · next hs => exact reaches_readLettered htakes ih hs
    · exact reaches_error (past_start ls) hviable (by simp)

/-- A whole text is read so: it may go on where the type ends. -/
theorem reaches_readAll (ls : List Lexeme) :
    Reaches (fun syms => ∃ t, Spells syms t) ls (fun _ => True) (readAll ls) := by
  rw [readAll]
  split
  · next hs =>
    have hopen : (⟨.unclosed, (peek ls).offset⟩ : Lexeme) ∈ ls := by
      cases ls with
      | nil => cases hs
      | cons l ls =>
        rw [← hs]
        exact List.mem_cons_self
    exact reaches_unclosed hopen
  · refine (reaches_reader (tracks_readType ls.length) (takes_readType ls.length) (past_start ls) ?_).bind ?_
    · intro syms t h
      exact .whole ⟨t, h⟩
    rintro ⟨t, rest⟩ ⟨syms, hspells, hrest⟩
    dsimp only
    split
    · exact reaches_ok trivial
    · exact reaches_error hrest (.whole ⟨t, hspells⟩) (by simp)

/-! ## Offsets in the text -/

/-- Symbols of a type can be written. -/
theorem isWritten_of_spells {syms : List Symbol} {t : Ty} (h : Spells syms t) : ∀ x ∈ syms, x.IsWritten :=
  forall_mem_of_spells (fun _ => trivial) (fun _ hc => hc) h

/-- After names and punctuators of a text there is something left, if only the end of the text. -/
theorem exists_cons_of_past {s : Bytes} {syms : List Symbol} {rest : List Lexeme} (h : Past syms (lexemes s) rest)
    (hinner : ∀ x ∈ syms, x.IsInner) : ∃ l ls, rest = l :: ls := by
  cases rest with
  | cons l ls => exact ⟨l, ls, rfl⟩
  | nil =>
    obtain ⟨taken, htaken, rfl⟩ := h
    rw [List.append_nil] at htaken
    obtain ⟨all, last, hlast, -, hnot⟩ := exists_last_symbol s
    rw [symbols, htaken] at hlast
    exact absurd (hinner last (hlast ▸ List.mem_append_right _ List.mem_cons_self)) hnot

/-- What the offset of a problem says about the text. -/
theorem offset_of_halts {s : Bytes} {p : Problem} (h : Halts (fun syms => ∃ t, Spells syms t) (lexemes s) p) :
    ∃ front back, s = front ++ back ∧ p.offset = front.length ∧
      ((p.cause = .unclosedQuote ∧ ∃ q name, isQuote q = true ∧ back = q :: doubled q name) ∨
        (p.cause ≠ .unclosedQuote ∧ ∃ w t, parse (front ++ w) = .ok t)) := by
  rcases h with ⟨hcause, hopen⟩ | ⟨hcause, syms, rest, hpast, hoffset, more, t, hspells⟩
  · obtain ⟨taken, rest, hsplit⟩ := List.append_of_mem hopen
    obtain ⟨front, q, name, hs, hq, hlength⟩ := exists_open_of_standsAt (standsAt_lexemesFrom hsplit) rfl
    exact ⟨front, _, hs, hlength.trans (Nat.zero_add _), .inl ⟨hcause, q, name, hq, rfl⟩⟩
  · obtain ⟨l, ls, rfl⟩ := exists_cons_of_past hpast fun x hx =>
      isInner_of_spells hspells x (List.mem_append_left _ hx)
    obtain ⟨taken, hsplit, rfl⟩ := hpast
    obtain ⟨front, back, hs, hlength, hfront, -⟩ := standsAt_lexemesFrom hsplit
    -- the completion is written after a blank, so that it does not run into the last name
    obtain ⟨w, hw⟩ := exists_cuts fun x hx => isWritten_of_spells hspells x (List.mem_append_right _ hx)
    refine ⟨front, back, hs, ?_, .inr ⟨hcause, 32 :: w, t, ?_⟩⟩
    · rw [← hoffset, ← Nat.zero_add front.length]
      exact hlength
    · exact parse_of_spells hspells (symbols_of_cuts (hfront.append hw))

/-! ## The wording -/

/-- The text has three bytes at least, and starts unlike `unterminated`. -/
def StartsApart (s : Bytes) : Prop := 3 ≤ s.length ∧ s.take 3 ≠ Bytes.ofString "unt"

instance (s : Bytes) : Decidable (StartsApart s) := inferInstanceAs (Decidable (_ ∧ _))

theorem StartsApart.append {s : Bytes} (h : StartsApart s) (t : Bytes) : StartsApart (s ++ t) := by
  rw [StartsApart, List.length_append, List.take_append_of_le_length h.1]
  exact ⟨Nat.le_add_right_of_le h.1, h.2⟩

theorem StartsApart.ofString_append {s : String} (h : StartsApart (Bytes.ofString s)) (t : String) :
    StartsApart (Bytes.ofString (s ++ t)) := by
  rw [Bytes.ofString_append]
  exact h.append _

theorem startsApart_name (k : Kind) : StartsApart (Bytes.ofString k.name) := by
  cases k with
  | beyond excess =>
    have hname : StartsApart (Bytes.ofString "Kind(") := by decide +kernel
    exact (hname.ofString_append _).ofString_append _
  | _ => decide +kernel

theorem startsApart_text {cause : Cause} (h : cause ≠ .unclosedQuote) : StartsApart cause.text := by
  cases cause with
  | unclosedQuote => exact absurd rfl h
  | expectedPunct c found =>
    have hstart : StartsApart (Bytes.ofString "expected ") := by decide +kernel
    exact ((hstart.append _).append _).append _
  | expectedName found =>
    have hstart : StartsApart (Bytes.ofString "expected identifier, found ") := by decide +kernel
    exact hstart.append _
  | expectedType found =>
    have hstart : StartsApart (Bytes.ofString "expected type, found ") := by decide +kernel
    exact hstart.append _
  | unknownKind text =>
    have hstart : StartsApart (Bytes.ofString "unknown kind ") := by decide +kernel
    exact hstart.append _
  | lazyKind kind =>
    have hstart : StartsApart (Bytes.ofString "lazy ") := by decide +kernel
    exact (hstart.ofString_append _).ofString_append _
  | enumKind text =>
    have hstart : StartsApart (Bytes.ofString "invalid enum superkind ") := by decide +kernel
    exact hstart.append _
  | literal kind text error =>
    have hstart := (startsApart_name kind).ofString_append " literal "
    exact ((hstart.append _).append _).append _
  | trailing found =>
    have hstart : StartsApart (Bytes.ofString "unexpected ") := by decide +kernel
    exact (hstart.append _).append _

/-- The wording tells a name that is not closed from all else. -/
theorem Cause.text_eq_iff {cause : Cause} :
    cause.text = Bytes.ofString "unterminated quoted name" ↔ cause = .unclosedQuote := by
  refine ⟨fun h => ?_, fun h => congrArg Cause.text h⟩
  by_contra hcause
  refine (startsApart_text hcause).2 ?_
  rw [h]
  decide +kernel

/-- **Parse errors point at the right place.** The error tells the text and an offset in it. If the problem is a quoted
name that is not closed, then the offset is that of its opening quote, and every quote after it is doubled. Otherwise
what stands before the offset is the start of a text that stands for a type. -/
theorem parse_error_offset {s : Bytes} {e : ParseError} (h : parse s = .error e) :
    e.input = s ∧ e.offset ≤ s.length ∧
      (e.cause.text ≠ Bytes.ofString "unterminated quoted name" → ∃ w t, parse (s.take e.offset ++ w) = .ok t) ∧
      (e.cause.text = Bytes.ofString "unterminated quoted name" →
        ∃ q name, isQuote q = true ∧ s.drop e.offset = q :: doubled q name) := by
  rw [parse] at h
  split at h
  · cases h
  · next p hread =>
    cases h
    obtain ⟨front, back, rfl, hoffset, hplace⟩ := offset_of_halts ((reaches_readAll _).2 p hread)
    dsimp only
    rw [Cause.text_eq_iff, hoffset, List.take_left, List.drop_left]
    refine ⟨rfl, by simp, ?_, ?_⟩
    · intro hcause
      rcases hplace with ⟨hopen, -⟩ | ⟨-, hviable⟩
      · exact absurd hopen (Cause.text_eq_iff.not.1 hcause)
      · exact hviable
    · intro hcause
      rcases hplace with ⟨-, hopen⟩ | ⟨hnot, -⟩
      · exact hopen
      · exact absurd hcause hnot

/-- There are no enums of files, which is told where the kind stands: another kind could stand there. -/
theorem parse_error_offset_enumOfFiles :
    parse (Bytes.ofString "*[A:n,B:%F[x:1]]") =
        .error ⟨Bytes.ofString "*[A:n,B:%F[x:1]]", 9, .enumKind (Bytes.ofString "F")⟩ ∧
      (Bytes.ofString "*[A:n,B:%F[x:1]]").take 9 = Bytes.ofString "*[A:n,B:%" ∧
      ∃ w t, parse (Bytes.ofString "*[A:n,B:%" ++ w) = .ok t := by
  have hlexemes : lexemes (Bytes.ofString "*[A:n,B:%F[x:1]]") =
      [⟨.punct 42, 0⟩, ⟨.punct 91, 1⟩, ⟨.ident (Bytes.ofString "A"), 2⟩, ⟨.punct 58, 3⟩,
        ⟨.ident (Bytes.ofString "n"), 4⟩, ⟨.punct 44, 5⟩, ⟨.ident (Bytes.ofString "B"), 6⟩, ⟨.punct 58, 7⟩,
        ⟨.punct 37, 8⟩, ⟨.ident (Bytes.ofString "F"), 9⟩, ⟨.punct 91, 10⟩, ⟨.ident (Bytes.ofString "x"), 11⟩,
        ⟨.punct 58, 12⟩, ⟨.ident (Bytes.ofString "1"), 13⟩, ⟨.punct 93, 14⟩, ⟨.punct 93, 15⟩, ⟨.finish, 16⟩] := by
    decide +kernel
  have hparse : parse (Bytes.ofString "*[A:n,B:%F[x:1]]") =
      .error ⟨Bytes.ofString "*[A:n,B:%F[x:1]]", 9, .enumKind (Bytes.ofString "F")⟩ := by
    rw [parse, hlexemes]
    rfl
  have htake : (Bytes.ofString "*[A:n,B:%F[x:1]]").take 9 = Bytes.ofString "*[A:n,B:%" := by decide +kernel
  refine ⟨hparse, htake, ?_⟩
  rw [← htake]
  exact (parse_error_offset hparse).2.2.1 (mt Cause.text_eq_iff.1 (by simp))

end FormulaTypes.Spec
