import FormulaTypes.Proofs.Number.ReadBack
import FormulaTypes.Spec.Printer

/-!
# The symbols of a text

The symbols of a text are its lexemes without their offsets. One equation a kind of lexeme says how they start
(`symbols_punct`, `symbols_blank`, `symbols_quote`, `symbols_word`). From these:

* the text of a name is one symbol, whatever bytes the name has (`symbols_nameText`);
* the text of a literal is one symbol (`symbols_literalText`).

Both hold in front of a text that starts with a punctuator or is empty (`Breaks`), which is all that is ever written
after them.
-/

namespace FormulaTypes.Spec

open Number (Double)

/-- The symbols of a text, offsets aside. -/
def symbols (s : Bytes) : List Symbol := (lexemes s).map Lexeme.symbol

/-- The symbol is a name or a punctuator. -/
def Symbol.IsInner : Symbol → Prop
  | .punct _ | .ident _ => True
  | .unclosed | .finish => False

/-- Where a text starts does not change its symbols. -/
theorem map_symbol_lexemesFrom (offset : Nat) (s : Bytes) : (lexemesFrom offset s).map Lexeme.symbol = symbols s := by
  suffices ∀ offset', (lexemesFrom offset s).map Lexeme.symbol = (lexemesFrom offset' s).map Lexeme.symbol from this 0
  induction offset, s using lexemesFrom.induct with
  | case1 offset =>
    intro offset'
    rw [lexemesFrom, lexemesFrom, List.map_singleton, List.map_singleton]
  | case2 offset c rest hb ih =>
    intro offset'
    rw [lexemesFrom, lexemesFrom, if_pos hb, if_pos hb]
    exact ih _
  | case3 offset c rest hb hp ih =>
    intro offset'
    rw [lexemesFrom, lexemesFrom, if_neg hb, if_neg hb, if_pos hp, if_pos hp, List.map_cons, List.map_cons, ih]
  | case4 offset c rest hb hp hq hc =>
    intro offset'
    rw [lexemesFrom, lexemesFrom, if_neg hb, if_neg hb, if_neg hp, if_neg hp, if_pos hq, if_pos hq]
    split <;> simp_all
  | case5 offset c rest hb hp hq name tail hc ih =>
    intro offset'
    rw [lexemesFrom, lexemesFrom, if_neg hb, if_neg hb, if_neg hp, if_neg hp, if_pos hq, if_pos hq]
    split
    · next hnone => rw [hnone] at hc; cases hc
    · next hsome =>
      rw [hsome] at hc
      cases hc
      rw [List.map_cons, List.map_cons, ih]
  | case6 offset c rest hb hp hq ih =>
    intro offset'
    rw [lexemesFrom, lexemesFrom, if_neg hb, if_neg hb, if_neg hp, if_neg hp, if_neg hq, if_neg hq, List.map_cons,
      List.map_cons, ih]

section Equations

variable {c : UInt8} {s : Bytes}

@[simp] theorem symbols_nil : symbols [] = [.finish] := by
  rw [symbols, lexemes, lexemesFrom, List.map_singleton]

theorem symbols_blank (h : isBlank c = true) : symbols (c :: s) = symbols s := by
  rw [symbols, lexemes, lexemesFrom, if_pos h, map_symbol_lexemesFrom]

theorem not_isBlank_of_isPunct (h : isPunct c = true) : ¬ isBlank c = true := by
  simp only [isPunct, Bool.or_eq_true, decide_eq_true_eq] at h
  rcases h with (((((rfl | rfl) | rfl) | rfl) | rfl) | rfl) | rfl <;> decide

theorem symbols_punct (h : isPunct c = true) : symbols (c :: s) = .punct c :: symbols s := by
  rw [symbols, lexemes, lexemesFrom, if_neg (not_isBlank_of_isPunct h), if_pos h, List.map_cons,
    map_symbol_lexemesFrom]

theorem not_isBlank_of_isQuote (h : isQuote c = true) : ¬ isBlank c = true ∧ ¬ isPunct c = true := by
  simp only [isQuote, Bool.or_eq_true, decide_eq_true_eq] at h
  rcases h with rfl | rfl <;> decide

theorem symbols_quote (hq : isQuote c = true) {name tail : Bytes} (h : closeQuote c s = some (name, tail)) :
    symbols (c :: s) = .ident name :: symbols tail := by
  obtain ⟨hblank, hpunct⟩ := not_isBlank_of_isQuote hq
  rw [symbols, lexemes, lexemesFrom, if_neg hblank, if_neg hpunct, if_pos hq]
  split
  · next hnone => rw [hnone] at h; cases h
  · next hsome =>
    rw [hsome] at h
    cases h
    rw [List.map_cons, map_symbol_lexemesFrom]

theorem symbols_unclosed (hq : isQuote c = true) (h : closeQuote c s = none) : symbols (c :: s) = [.unclosed] := by
  obtain ⟨hblank, hpunct⟩ := not_isBlank_of_isQuote hq
  rw [symbols, lexemes, lexemesFrom, if_neg hblank, if_neg hpunct, if_pos hq]
  split
  · rfl
  · next hsome =>
    rw [hsome] at h
    cases h

theorem symbols_plain (h : isPlain c = true) :
    symbols (c :: s) = .ident (c :: s.takeWhile isPlain) :: symbols (s.dropWhile isPlain) := by
  simp only [isPlain, Bool.and_eq_true, Bool.not_eq_true'] at h
  rw [symbols, lexemes, lexemesFrom, if_neg (by simp [h]), if_neg (by simp [h]), if_neg (by simp [h]), List.map_cons,
    map_symbol_lexemesFrom]

end Equations

/-! ## Names -/

/-- The text is empty or starts with a punctuator. -/
def Breaks (tail : Bytes) : Prop := tail = [] ∨ ∃ c rest, tail = c :: rest ∧ isPunct c = true

theorem breaks_cons {c : UInt8} (h : isPunct c = true) (rest : Bytes) : Breaks (c :: rest) := .inr ⟨c, rest, rfl, h⟩

section Names

variable {tail : Bytes}

/-- A run of plain bytes that goes as far as it can is one symbol. -/
theorem symbols_run {w : Bytes} (hw : ∀ c ∈ w, isPlain c = true) (hne : w ≠ [])
    (ht : ∀ c ∈ tail.head?, isPlain c = false) : symbols (w ++ tail) = .ident w :: symbols tail := by
  obtain ⟨c, w, rfl⟩ := List.exists_cons_of_ne_nil hne
  have hrest : ∀ d ∈ w, isPlain d = true := fun d hd => hw d (List.mem_cons_of_mem _ hd)
  have hstop : tail.takeWhile isPlain = [] ∧ tail.dropWhile isPlain = tail := by
    cases tail with
    | nil => exact ⟨rfl, rfl⟩
    | cons d rest =>
      have hplain : ¬ isPlain d = true := by simp [ht d rfl]
      exact ⟨List.takeWhile_cons_of_neg hplain, List.dropWhile_cons_of_neg hplain⟩
  rw [List.cons_append, symbols_plain (hw c List.mem_cons_self), List.takeWhile_append_of_pos hrest,
    List.dropWhile_append_of_pos hrest, hstop.1, hstop.2, List.append_nil]

theorem symbols_word {w : Bytes} (hw : ∀ c ∈ w, isPlain c = true) (hne : w ≠ []) (ht : Breaks tail) :
    symbols (w ++ tail) = .ident w :: symbols tail := by
  refine symbols_run hw hne ?_
  rcases ht with rfl | ⟨d, rest, rfl, hd⟩
  · rintro c ⟨⟩
  · rintro c ⟨⟩
    simp [isPlain, hd]

/-- A name with one of the quotes doubled. -/
def doubled (q : UInt8) (name : Bytes) : Bytes := name.flatMap fun c => if c = q then [q, q] else [c]

theorem doubled_cons (q c : UInt8) (name : Bytes) :
    doubled q (c :: name) = if c = q then q :: q :: doubled q name else c :: doubled q name := by
  rw [doubled, List.flatMap_cons]
  split <;> rfl

/-- A quoted name is read up to the first quote that is not doubled. -/
theorem closeQuote_eq_some_iff {q : UInt8} {s name : Bytes} :
    closeQuote q s = some (name, tail) ↔ s = doubled q name ++ q :: tail ∧ ∀ c ∈ tail.head?, c ≠ q := by
  constructor
  · intro h
    fun_induction closeQuote q s generalizing name with
    | case1 => cases h
    | case2 =>
      cases h
      refine ⟨rfl, ?_⟩
      rintro c ⟨⟩
    | case3 => cases h
    | case4 rest ih =>
      obtain ⟨⟨name, tail⟩, hr, he⟩ := Option.map_eq_some_iff.1 h
      cases he
      obtain ⟨rfl, ht⟩ := ih hr
      rw [doubled_cons, if_pos rfl]
      exact ⟨rfl, ht⟩
    | case5 d rest hd =>
      cases h
      refine ⟨rfl, ?_⟩
      rintro c ⟨⟩
      exact hd
    | case6 c d rest hc ih =>
      obtain ⟨⟨name, tail⟩, hr, he⟩ := Option.map_eq_some_iff.1 h
      cases he
      obtain ⟨hrest, ht⟩ := ih hr
      rw [doubled_cons, if_neg hc, hrest]
      exact ⟨rfl, ht⟩
  · rintro ⟨rfl, ht⟩
    induction name with
    | nil =>
      cases tail with
      | nil => exact if_pos rfl
      | cons d rest => exact (if_pos rfl).trans (if_neg (ht d rfl))
    | cons c name ih =>
      rw [doubled_cons]
      by_cases hc : c = q
      · rw [if_pos hc, List.cons_append, List.cons_append, closeQuote, if_pos rfl, if_pos rfl, ih, hc]
        rfl
      · rw [if_neg hc, List.cons_append]
        obtain ⟨d, rest, hnext⟩ : ∃ d rest, doubled q name ++ q :: tail = d :: rest :=
          List.exists_cons_of_ne_nil (by simp)
        rw [hnext] at ih ⊢
        rw [closeQuote, if_neg hc, ih]
        rfl

/-- A name with its quotes doubled is read up to the quote that closes it. -/
theorem closeQuote_doubleQuotes (name : Bytes) (ht : Breaks tail) :
    closeQuote 39 (doubleQuotes name ++ 39 :: tail) = some (name, tail) := by
  refine closeQuote_eq_some_iff.2 ⟨rfl, ?_⟩
  rcases ht with rfl | ⟨d, rest, rfl, hd⟩
  · rintro c ⟨⟩
  · rintro c ⟨⟩ rfl
    cases hd

/-- The text of a name is one symbol, whatever the name. -/
theorem symbols_nameText (name : Bytes) (ht : Breaks tail) :
    symbols (nameText name ++ tail) = .ident name :: symbols tail := by
  unfold nameText
  split
  · rw [List.cons_append, List.cons_append, List.append_assoc, List.singleton_append,
      symbols_quote rfl (closeQuote_doubleQuotes name ht)]
  · next hq =>
    simp only [needsQuotes, Bool.or_eq_true, not_or, List.any_eq_true, not_exists, not_and, Bool.not_eq_true',
      Bool.not_eq_false] at hq
    refine symbols_word hq.2 ?_ ht
    rintro rfl
    exact hq.1 rfl

/-! ## Literals -/

theorem isPlain_of_isNumberByte {c : UInt8} (h : Number.IsNumberByte c) : isPlain c = true := by
  rcases h with h | rfl | rfl | rfl | rfl
  · have hne : ∀ x : UInt8, (x.toNat < 48 ∨ 57 < x.toNat) → decide (c = x) = false :=
      fun x hx => decide_eq_false (h.ne hx)
    simp [isPlain, isPunct, isBlank, isQuote, hne]
  all_goals decide

/-- The text of a double is a run of plain bytes. -/
theorem isPlain_double (d : Double) : d.text ≠ [] ∧ ∀ c ∈ d.text, isPlain c = true := by
  cases hnan : d.isNaN with
  | true =>
    rw [Double.text_of_isNaN hnan]
    exact ⟨by decide, List.all_eq_true.1 (by decide)⟩
  | false =>
    cases hinf : d.isInfinite with
    | true =>
      rw [Double.text_of_isInfinite hinf]
      cases d.isNegative <;> exact ⟨by decide, List.all_eq_true.1 (by decide)⟩
    | false =>
      simp only [Double.isNaN, Double.isInfinite, decide_eq_false_iff_not] at hnan hinf
      obtain ⟨body, htext, hbody, -⟩ := Double.exists_body (show d.magnitude < Number.Binary.double.infinity by omega)
      obtain ⟨hbytes, c, rest, rfl, hc⟩ := hbody
      rw [htext]
      unfold Number.signed
      split
      · refine ⟨List.cons_ne_nil _ _, fun x hx => ?_⟩
        rcases List.mem_cons.1 hx with rfl | hx
        · decide
        · exact isPlain_of_isNumberByte (hbytes x hx)
      · exact ⟨List.cons_ne_nil _ _, fun x hx => isPlain_of_isNumberByte (hbytes x hx)⟩

/-- What a literal is written as, quotes aside. -/
def spelling : Literal → Bytes
  | .number value => value.text
  | .flag value => Bytes.ofString (if value then "true" else "false")
  | .text value => value

/-- The text of a literal is one symbol. -/
theorem symbols_literalText (l : Literal) (ht : Breaks tail) :
    symbols (literalText l ++ tail) = .ident (spelling l) :: symbols tail := by
  cases l with
  | number d => exact symbols_word (isPlain_double d).2 (isPlain_double d).1 ht
  | flag b =>
    have hbytes : Bytes.ofString (if b then "true" else "false") ≠ [] ∧
        ∀ c ∈ Bytes.ofString (if b then "true" else "false"), isPlain c = true := by
      cases b <;> decide +kernel
    exact symbols_word hbytes.2 hbytes.1 ht
  | text value => exact symbols_nameText value ht

end Names

end FormulaTypes.Spec
