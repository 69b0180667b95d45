import Mathlib.Data.Set.Subsingleton
import FormulaTypes.Proofs.NameMap
import FormulaTypes.Proofs.Run
import FormulaTypes.Proofs.Spec.Grammar

/-!
# Texts that are types

`Cuts s syms` says how a text is cut into symbols, and `Spells syms t` which symbols spell a type. A text stands for a
type exactly if it is cut into symbols that spell it (`parse_eq_ok_iff`). One half is that the reader takes what the
grammar spells (`parse_of_spells`). For the other half every reader is followed back from what it gives:

* it took the lexemes up to those that are left, and their symbols are in the grammar (`Takes`);
* a reader of lists takes entries in brackets if its items are taken so (`takes_readList`);
* the reader of types takes what spells the type that it gives (`takes_readType`).

The lexemes of a text are those of its cut, and the end of the text after them (`cuts_iff`).
-/

namespace FormulaTypes.Spec

/-! ## Cutting a text -/

/-- The text is cut into the symbols. Blanks are skipped; a punctuator stands for itself; a name stands in quotes, where
a quote of its own is doubled, or is a run of plain bytes that goes as far as it can. -/
inductive Cuts : Bytes → List Symbol → Prop
  | finish : Cuts [] []
  | blank {c : UInt8} {s : Bytes} {syms : List Symbol} (hc : isBlank c = true) (h : Cuts s syms) : Cuts (c :: s) syms
  | punct {c : UInt8} {s : Bytes} {syms : List Symbol} (hc : isPunct c = true) (h : Cuts s syms) :
      Cuts (c :: s) (.punct c :: syms)
  | quoted {q : UInt8} {name tail : Bytes} {syms : List Symbol} (hq : isQuote q = true)
      (hend : ∀ c ∈ tail.head?, c ≠ q) (h : Cuts tail syms) :
      Cuts (q :: (doubled q name ++ q :: tail)) (.ident name :: syms)
  | word {w tail : Bytes} {syms : List Symbol} (hne : w ≠ []) (hw : ∀ c ∈ w, isPlain c = true)
      (hend : ∀ c ∈ tail.head?, isPlain c = false) (h : Cuts tail syms) : Cuts (w ++ tail) (.ident w :: syms)

theorem symbols_of_cuts {s : Bytes} {syms : List Symbol} (h : Cuts s syms) : symbols s = syms ++ [.finish] := by
  induction h with
  | finish => exact symbols_nil
  | blank hc _ ih => rw [symbols_blank hc, ih]
  | punct hc _ ih => rw [symbols_punct hc, ih, List.cons_append]
  | quoted hq hend _ ih => rw [symbols_quote hq (closeQuote_eq_some_iff.2 ⟨rfl, hend⟩), ih, List.cons_append]
  | word hne hw hend _ ih => rw [symbols_run hw hne hend, ih, List.cons_append]

/-- The symbols of the text are names and punctuators and a last one: the end of the text, if the text can be cut, and
otherwise a name that is not closed. -/
def Closes (s : Bytes) : Prop :=
  ∃ syms, (∀ x ∈ syms, x.IsInner) ∧ (Cuts s syms ∨ symbols s = syms ++ [.unclosed])

/-- One more symbol in front. -/
theorem Closes.cons {s s' : Bytes} {x : Symbol} (h : Closes s') (hs : symbols s = x :: symbols s') (hx : x.IsInner)
    (hcut : ∀ syms, Cuts s' syms → Cuts s (x :: syms)) : Closes s := by
  obtain ⟨syms, hinner, hrest⟩ := h
  refine ⟨x :: syms, List.forall_mem_cons.2 ⟨hx, hinner⟩, hrest.imp (hcut syms) fun h => ?_⟩
  rw [hs, h, List.cons_append]

theorem mem_head?_of_front {front s : Bytes} (h : front <+: s) {c : UInt8} (hc : c ∈ front.head?) : c ∈ s.head? := by
  obtain ⟨back, rfl⟩ := h
  cases front with
  | nil => cases hc
  | cons d front => exact hc

/-- A run of plain bytes goes as far as it can, also where the text after it is cut short. -/
theorem cuts_run {c : UInt8} {s front : Bytes} (hc : isPlain c = true) (hfront : front <+: s.dropWhile isPlain)
    {syms : List Symbol} (h : Cuts front syms) :
    Cuts (c :: s.takeWhile isPlain ++ front) (.ident (c :: s.takeWhile isPlain) :: syms) := by
  have hend : ∀ d ∈ front.head?, isPlain d = false := by
    intro d hd
    have hnot := List.head?_dropWhile_not isPlain s
    rw [Option.mem_def.1 (mem_head?_of_front hfront hd)] at hnot
    exact hnot
  have hw : ∀ d ∈ c :: s.takeWhile isPlain, isPlain d = true :=
    List.forall_mem_cons.2 ⟨hc, List.all_eq_true.1 List.all_takeWhile⟩
  exact .word (List.cons_ne_nil _ _) hw hend h

theorem cuts_word {c : UInt8} {s : Bytes} (hc : isPlain c = true) {syms : List Symbol}
    (h : Cuts (s.dropWhile isPlain) syms) : Cuts (c :: s) (.ident (c :: s.takeWhile isPlain) :: syms) := by
  have hcut := cuts_run hc (List.prefix_refl _) h
  rwa [List.cons_append, List.takeWhile_append_dropWhile] at hcut

/-- The symbols of every text are so: the cases are those of the lexer. -/
theorem closes (s : Bytes) : Closes s := by
  induction 0, s using lexemesFrom.induct with
  | case1 => exact ⟨[], List.forall_mem_nil _, .inl .finish⟩
  | case2 _ c rest hb ih =>
    obtain ⟨syms, hinner, hrest⟩ := ih
    refine ⟨syms, hinner, hrest.imp (.blank hb) fun h => ?_⟩
    rw [symbols_blank hb, h]
  | case3 _ c rest _ hp ih => exact ih.cons (symbols_punct hp) trivial fun _ => .punct hp
  | case4 _ c rest _ _ hq hclose => exact ⟨[], List.forall_mem_nil _, .inr (symbols_unclosed hq hclose)⟩
  | case5 _ c rest _ _ hq name tail hclose ih =>
    obtain ⟨rfl, hend⟩ := closeQuote_eq_some_iff.1 hclose
    exact ih.cons (symbols_quote hq hclose) trivial fun _ => .quoted hq hend
  | case6 _ c rest hb hp hq ih =>
    have hplain : isPlain c = true := by simp [isPlain, hb, hp, hq]
    exact ih.cons (symbols_plain hplain) trivial fun _ => cuts_word hplain

/-- A text is cut into symbols if they are all that the lexer finds before the end. -/
theorem cuts_iff {s : Bytes} {syms : List Symbol} : Cuts s syms ↔ symbols s = syms ++ [.finish] := by
  refine ⟨symbols_of_cuts, fun h => ?_⟩
  obtain ⟨syms', -, hcut | hopen⟩ := closes s
  · rw [symbols_of_cuts hcut] at h
    rwa [← List.append_cancel_right h]
  · rw [hopen] at h
    have hlast := congrArg List.getLast? h
    simp at hlast

/-- Only the last symbol of a text is neither a name nor a punctuator. -/
theorem exists_last_symbol (s : Bytes) :
    ∃ syms last, symbols s = syms ++ [last] ∧ (∀ x ∈ syms, x.IsInner) ∧ ¬ last.IsInner := by
  obtain ⟨syms, hinner, hcut | hopen⟩ := closes s
  · exact ⟨syms, .finish, symbols_of_cuts hcut, hinner, id⟩
  · exact ⟨syms, .unclosed, hopen, hinner, id⟩

/-- If the end comes next after inner symbols of a text, then the text is cut into these. -/
theorem cuts_of_append {s : Bytes} {syms : List Symbol} {rest : List Lexeme} (hinner : ∀ x ∈ syms, x.IsInner)
    (h : symbols s = syms ++ rest.map Lexeme.symbol) (hnext : (peek rest).symbol = .finish) : Cuts s syms := by
  obtain ⟨all, last, hlast, hall, hnot⟩ := exists_last_symbol s
  rw [hlast] at h
  rcases List.eq_nil_or_concat' rest with rfl | ⟨before, l, rfl⟩
  · rw [List.map_nil, List.append_nil] at h
    exact absurd (hinner last (h ▸ List.mem_append_right _ List.mem_cons_self)) hnot
  rw [List.map_append, ← List.append_assoc] at h
  obtain ⟨hfront, hback⟩ := List.append_inj' h rfl
  cases before with
  | nil =>
    obtain rfl : last = .finish := (List.singleton_inj.1 hback).trans hnext
    refine cuts_iff.2 ?_
    rw [hlast, hfront, List.map_nil, List.append_nil]
  | cons l' before =>
    -- the end of the text is no inner symbol
    have hmem : Symbol.finish ∈ all := by
      rw [hfront, ← show l'.symbol = .finish from hnext]
      simp
    exact absurd (hall _ hmem) id

/-! ## What a reader took -/

/-- Whatever the reader gives, it took symbols that stand for it in the grammar, and left the others. -/
def Takes {α : Type} (reader : Reader α) (P : List Symbol → α → Prop) : Prop :=
  ∀ ls a rest, reader ls = .ok (a, rest) → ∃ syms, ls.map Lexeme.symbol = syms ++ rest.map Lexeme.symbol ∧ P syms a

section Steps

variable {ls rest : List Lexeme}

/-- To advance is to take the symbol that was seen. -/
theorem symbols_of_advance {s : Symbol} (hs : (peek ls).symbol = s) (hf : s ≠ .finish) (h : advance ls = .ok rest) :
    ls.map Lexeme.symbol = s :: rest.map Lexeme.symbol := by
  cases ls with
  | nil => exact absurd hs.symm hf
  | cons l ls =>
    have hrest : rest = ls := by
      rw [advance, List.tail_cons] at h
      split at h
      · cases h
      · exact (Except.ok.inj h).symm
    rw [List.map_cons, hrest, show l.symbol = s from hs]

theorem symbols_of_expect {c : UInt8} (h : expect c ls = .ok rest) :
    ls.map Lexeme.symbol = .punct c :: rest.map Lexeme.symbol := by
  rw [expect] at h
  split at h
  · next hpeek => exact symbols_of_advance hpeek (by simp) h
  · cases h

theorem symbols_of_readName {name : Bytes} (h : readName ls = .ok (name, rest)) :
    ls.map Lexeme.symbol = .ident name :: rest.map Lexeme.symbol := by
  rw [readName] at h
  split at h
  · next name' hpeek =>
    obtain ⟨ls', hadvance, h⟩ := bind_eq_ok_iff.1 h
    cases h
    exact symbols_of_advance hpeek (by simp) hadvance
  · cases h

end Steps

section Lists

variable {α : Type} {item : Reader α} {P : List Symbol → α → Prop}

/-- A reader of entries took a list of them, up to the closing bracket. -/
theorem takes_readEntries (h : Takes item P) (fuel : Nat) :
    Takes (readEntries item fuel) fun syms bound => ∃ entries : List (Entry α), entries ≠ [] ∧
      syms = listed entries ++ [.punct 93] ∧ bound = entries.map Entry.bound ∧ ∀ e ∈ entries, P e.symbols e.value := by
  induction fuel with
  | zero =>
    intro ls bound rest hread
    cases hread
  | succ fuel ih =>
    intro ls bound rest hread
    rw [readEntries] at hread
    obtain ⟨⟨name, ls₁⟩, hname, hread⟩ := bind_eq_ok_iff.1 hread
    obtain ⟨ls₂, hcolon, hread⟩ := bind_eq_ok_iff.1 hread
    obtain ⟨⟨value, ls₃⟩, hitem, hread⟩ := bind_eq_ok_iff.1 hread
    obtain ⟨syms, hsyms, hvalue⟩ := h ls₂ value ls₃ hitem
    have hentry : ls.map Lexeme.symbol = .ident name :: .punct 58 :: (syms ++ ls₃.map Lexeme.symbol) := by
      rw [symbols_of_readName hname, symbols_of_expect hcolon, hsyms]
    dsimp only at hread
    split at hread
    · next hcomma =>
      obtain ⟨ls₄, hadvance, hread⟩ := bind_eq_ok_iff.1 hread
      obtain ⟨⟨more, ls₅⟩, hmore, hread⟩ := bind_eq_ok_iff.1 hread
      cases hread
      obtain ⟨_, hrest, entries, hne, rfl, rfl, hentries⟩ := ih ls₄ more ls₅ hmore
      obtain ⟨f, entries, rfl⟩ := List.exists_cons_of_ne_nil hne
      refine ⟨_, ?_, ⟨name, syms, value⟩ :: f :: entries, List.cons_ne_nil _ _, rfl, rfl,
        List.forall_mem_cons.2 ⟨hvalue, hentries⟩⟩
      rw [hentry, symbols_of_advance hcomma (by simp) hadvance, hrest]
      simp [listed]
    · obtain ⟨ls₄, hclose, hread⟩ := bind_eq_ok_iff.1 hread
      cases hread
      refine ⟨_, ?_, [⟨name, syms, value⟩], List.cons_ne_nil _ _, rfl, rfl, List.forall_mem_singleton.2 hvalue⟩
      rw [hentry, symbols_of_expect hclose]
      simp [listed]

/-- A reader of a list took entries in brackets. -/
theorem takes_readList (h : Takes item P) :
    Takes (readList item) fun syms bound => ∃ entries : List (Entry α), syms = bracketed entries ∧
      bound = entries.map Entry.bound ∧ ∀ e ∈ entries, P e.symbols e.value := by
  intro ls bound rest hread
  rw [readList] at hread
  obtain ⟨ls₁, hbracket, hread⟩ := bind_eq_ok_iff.1 hread
  rw [symbols_of_expect hbracket]
  split at hread
  · next hclose =>
    obtain ⟨ls₂, hadvance, hread⟩ := bind_eq_ok_iff.1 hread
    cases hread
    refine ⟨_, ?_, [], rfl, rfl, List.forall_mem_nil _⟩
    rw [symbols_of_advance hclose (by simp) hadvance]
    rfl
  · obtain ⟨_, hsyms, entries, -, rfl, rfl, hentries⟩ := takes_readEntries h _ ls₁ bound rest hread
    refine ⟨_, ?_, entries, rfl, rfl, hentries⟩
    rw [hsyms]
    rfl

end Lists

/-- After a symbol, what another reader takes. -/
theorem exists_of_advance {α : Type} {reader : Reader α} {P : List Symbol → α → Prop} {s : Symbol}
    {ls rest : List Lexeme} {a : α} (h : Takes reader fun syms a => P (s :: syms) a) (hs : (peek ls).symbol = s)
    (hf : s ≠ .finish) (hread : (advance ls >>= reader) = .ok (a, rest)) :
    ∃ syms, ls.map Lexeme.symbol = syms ++ rest.map Lexeme.symbol ∧ P syms a := by
  obtain ⟨ls₁, hadvance, hread⟩ := bind_eq_ok_iff.1 hread
  obtain ⟨syms, hsyms, hp⟩ := h ls₁ a rest hread
  refine ⟨s :: syms, ?_, hp⟩
  rw [symbols_of_advance hs hf hadvance, hsyms, List.cons_append]

/-- A reader of literals took one name that stands for the literal. -/
theorem takes_readLiteral (k : Kind) :
    Takes (readLiteral k) fun syms l => ∃ text, syms = [.ident text] ∧ literalOf k text = .ok l := by
  intro ls l rest hread
  rw [readLiteral] at hread
  obtain ⟨⟨text, ls₁⟩, hname, hread⟩ := bind_eq_ok_iff.1 hread
  dsimp only at hread
  split at hread
  · next hliteral =>
    cases hread
    exact ⟨_, symbols_of_readName hname, text, rfl, hliteral⟩
  · cases hread

/-! ## Types -/

/-- A letter that stands for a kind is the letter of the kind. -/
theorem eq_letter_of_ofLetter? {text : Bytes} {k : Kind} (h : Kind.ofLetter? text = some k) : text = [k.letter] := by
  have := List.find?_some h
  simp only [Bool.and_eq_true, decide_eq_true_eq] at this
  exact this.2

theorem takes_readFields {item : Reader Ty} (h : Takes item Spells) (shape : Shape) :
    Takes (readFields item shape) fun syms t => Spells (mark shape :: syms) t := by
  intro ls t rest hread
  rw [readFields] at hread
  obtain ⟨⟨bound, ls₁⟩, hlist, hread⟩ := bind_eq_ok_iff.1 hread
  cases hread
  obtain ⟨_, hsyms, entries, rfl, rfl, hentries⟩ := takes_readList h ls bound rest hlist
  exact ⟨_, hsyms, .aggregate hentries⟩

theorem takes_readEnum : Takes readEnum fun syms t => Spells (.punct 37 :: syms) t := by
  intro ls t rest hread
  rw [readEnum] at hread
  obtain ⟨⟨text, ls₁⟩, hname, hread⟩ := bind_eq_ok_iff.1 hread
  dsimp only at hread
  split at hread
  · next k hk =>
    obtain ⟨hletter, hprimitive⟩ := Option.filter_eq_some_iff.1 hk
    obtain ⟨⟨bound, ls₂⟩, hlist, hread⟩ := bind_eq_ok_iff.1 hread
    cases hread
    obtain ⟨_, hsyms, entries, rfl, rfl, hentries⟩ := takes_readList (takes_readLiteral k) ls₁ bound ls₂ hlist
    refine ⟨.ident text :: bracketed entries, ?_, ?_⟩
    · rw [symbols_of_readName hname, hsyms, List.cons_append]
    · rw [eq_letter_of_ofLetter? hletter]
      exact .enum hprimitive hentries
  · cases hread

/-- After a letter, the fields of a file or a large image are taken if a bracket follows. -/
theorem spells_of_readLettered {item : Reader Ty} (h : Takes item Spells) {text : Bytes} {ls rest : List Lexeme}
    {t : Ty} (hs : (peek ls).symbol = .ident text) (hread : readLettered item text ls = .ok (t, rest)) :
    ∃ syms, ls.map Lexeme.symbol = syms ++ rest.map Lexeme.symbol ∧ Spells syms t := by
  unfold readLettered at hread
  split at hread <;> try cases hread
  next hrecord htable _ _ _ hk =>
  obtain ⟨ls₁, hadvance, hread⟩ := bind_eq_ok_iff.1 hread
  rw [symbols_of_advance hs (by simp) hadvance, eq_letter_of_ofLetter? hk]
  split at hread
  · obtain ⟨syms, hsyms, hspells⟩ := takes_readFields h .file ls₁ t rest hread
    exact ⟨_ :: syms, by rw [hsyms]; rfl, hspells⟩
  · obtain ⟨syms, hsyms, hspells⟩ := takes_readFields h .largeImage ls₁ t rest hread
    exact ⟨_ :: syms, by rw [hsyms]; rfl, hspells⟩
  · split at hread
    · next form hform =>
      cases hread
      exact ⟨[_], rfl, .plain ⟨hrecord, htable⟩ hform⟩
    · cases hread

/-- The reader of types took symbols that spell the type. -/
theorem takes_readType (fuel : Nat) : Takes (readType fuel) Spells := by
  induction fuel with
  | zero =>
    intro ls t rest hread
    cases hread
  | succ fuel ih =>
    intro ls t rest hread
    rw [readType] at hread
    split at hread
    · next hs => exact exists_of_advance (takes_readFields ih .record) hs (by decide) hread
    · next hs => exact exists_of_advance (takes_readFields ih .table) hs (by decide) hread
    · next hs => exact exists_of_advance takes_readEnum hs (by decide) hread
    · next hs => exact spells_of_readLettered ih hs hread
    · cases hread

/-- A text that stands for a type is cut into symbols that spell it. -/
theorem exists_spells_of_parse {s : Bytes} {t : Ty} (h : parse s = .ok t) : ∃ syms, Cuts s syms ∧ Spells syms t := by
  have hread : readAll (lexemes s) = .ok t := by
    rw [parse] at h
    split at h
    · next hread => rw [hread, Except.ok.inj h]
    · cases h
  rw [readAll] at hread
  split at hread
  · cases hread
  obtain ⟨⟨u, rest⟩, htype, hread⟩ := bind_eq_ok_iff.1 hread
  dsimp only at hread
  split at hread
  · next hfinish =>
    cases hread
    obtain ⟨syms, hsyms, hspells⟩ := takes_readType _ _ t rest htype
    exact ⟨syms, cuts_of_append (isInner_of_spells hspells) hsyms hfinish, hspells⟩
  · cases hread

/-- **A text stands for a type exactly if it is cut into symbols that spell the type.** It can be cut in one way at
most. Of entries for one name the last one counts, and the names are in order. -/
theorem parse_eq_ok_iff (s : Bytes) :
    (∀ t, parse s = .ok t ↔ ∃ syms, Cuts s syms ∧ Spells syms t) ∧ {syms | Cuts s syms}.Subsingleton ∧
      ∀ (α : Type) (entries : List (Bytes × α)), (NameMap.ofList entries).Ordered ∧
        ∀ name, (NameMap.ofList entries).find? name = NameMap.find? entries.reverse name := by
  refine ⟨fun t => ⟨exists_spells_of_parse, ?_⟩, ?_, fun α entries => NameMap.ofList_spec entries⟩
  · rintro ⟨syms, hcut, hspells⟩
    exact parse_of_spells hspells (cuts_iff.1 hcut)
  · intro a ha b hb
    exact List.append_cancel_right ((cuts_iff.1 ha).symm.trans (cuts_iff.1 hb))

end FormulaTypes.Spec
