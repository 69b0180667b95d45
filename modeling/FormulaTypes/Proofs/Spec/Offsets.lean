import FormulaTypes.Proofs.Spec.Exact

/-!
# Where lexemes stand

The offset of a lexeme is the length of the text before it, and that text is cut into the symbols before it
(`standsAt_lexemesFrom`). Where a quoted name is not closed, the text is a quote and a name with its quotes doubled
(`exists_open_of_standsAt`). Symbols can be written behind any text that is cut: with a blank in front they neither
lengthen its last word nor double its last quote (`Cuts.append`, `exists_cuts`).
-/

namespace FormulaTypes.Spec

/-! ## Lexemes with their offsets -/

section Equations

variable (offset : Nat) {c : UInt8} {s name tail : Bytes}

theorem lexemesFrom_unclosed (hq : isQuote c = true) (h : closeQuote c s = none) :
    lexemesFrom offset (c :: s) = [⟨.unclosed, offset⟩] := by
  obtain ⟨hblank, hpunct⟩ := not_isBlank_of_isQuote hq
  rw [lexemesFrom, if_neg hblank, if_neg hpunct, if_pos hq]
  split
  · rfl
  · next hsome =>
    rw [hsome] at h
    cases h

theorem length_quoted : offset + 1 + ((doubled c name ++ c :: tail).length - tail.length) =
    offset + (c :: (doubled c name ++ [c])).length := by
  simp only [List.length_append, List.length_cons, List.length_nil]
  omega

theorem lexemesFrom_quoted (hq : isQuote c = true) (hend : ∀ d ∈ tail.head?, d ≠ c) :
    lexemesFrom offset (c :: (doubled c name ++ c :: tail)) =
      ⟨.ident name, offset⟩ :: lexemesFrom (offset + (c :: (doubled c name ++ [c])).length) tail := by
  have hclose : closeQuote c (doubled c name ++ c :: tail) = some (name, tail) :=
    closeQuote_eq_some_iff.2 ⟨rfl, hend⟩
  obtain ⟨hblank, hpunct⟩ := not_isBlank_of_isQuote hq
  rw [lexemesFrom, if_neg hblank, if_neg hpunct, if_pos hq]
  split
  · next hnone =>
    rw [hnone] at hclose
    cases hclose
  · next hsome =>
    rw [hsome] at hclose
    cases hclose
    rw [length_quoted]

theorem lexemesFrom_plain (hc : isPlain c = true) :
    lexemesFrom offset (c :: s) = ⟨.ident (c :: s.takeWhile isPlain), offset⟩ ::
      lexemesFrom (offset + 1 + (s.takeWhile isPlain).length) (s.dropWhile isPlain) := by
  simp only [isPlain, Bool.and_eq_true, Bool.not_eq_true'] at hc
  rw [lexemesFrom, if_neg (by simp [hc]), if_neg (by simp [hc]), if_neg (by simp [hc])]

end Equations

/-! ## Offsets -/

/-- In a text that starts at an offset, the lexeme stands behind a part that is cut into the symbols. What is left of
the text starts with the lexeme and has the lexemes after it. -/
def StandsAt (offset : Nat) (s : Bytes) (syms : List Symbol) (l : Lexeme) (rest : List Lexeme) : Prop :=
  ∃ front back, s = front ++ back ∧ l.offset = offset + front.length ∧ Cuts front syms ∧
    (∀ c ∈ back.head?, isBlank c = false) ∧ lexemesFrom l.offset back = l :: rest

variable {offset : Nat} {s s' w : Bytes} {l x : Lexeme} {taken rest : List Lexeme}

/-- The first lexeme stands at the start, unless there are blanks. -/
theorem standsAt_first (h : lexemesFrom offset s = l :: rest) (hl : l.offset = offset)
    (hs : ∀ c ∈ s.head?, isBlank c = false) : StandsAt offset s [] l rest :=
  ⟨[], s, rfl, hl, .finish, hs, hl ▸ h⟩

/-- A single lexeme stands at the start, unless there are blanks. -/
theorem standsAt_single (hlex : lexemesFrom offset s = [x]) (hx : x.offset = offset)
    (hblank : ∀ c ∈ s.head?, isBlank c = false) (h : lexemesFrom offset s = taken ++ l :: rest) :
    StandsAt offset s (taken.map Lexeme.symbol) l rest := by
  have hsplit := hlex.symm.trans h
  cases taken with
  | nil =>
    obtain ⟨rfl, -⟩ := List.cons.inj hsplit
    exact standsAt_first h hx hblank
  | cons y taken => simp at hsplit

/-- One more lexeme in front. -/
theorem standsAt_cons (hs : s = w ++ s') (hx : x.offset = offset) (hblank : ∀ c ∈ s.head?, isBlank c = false)
    (hlex : lexemesFrom offset s = x :: lexemesFrom (offset + w.length) s')
    (hcut : ∀ front, front <+: s' → ∀ syms, Cuts front syms → Cuts (w ++ front) (x.symbol :: syms))
    (ih : ∀ {taken l rest}, lexemesFrom (offset + w.length) s' = taken ++ l :: rest →
      StandsAt (offset + w.length) s' (taken.map Lexeme.symbol) l rest)
    (h : lexemesFrom offset s = taken ++ l :: rest) : StandsAt offset s (taken.map Lexeme.symbol) l rest := by
  cases taken with
  | nil =>
    have hl : x = l := by
      rw [hlex] at h
      exact (List.cons.inj h).1
    exact standsAt_first h (hl ▸ hx) hblank
  | cons y taken =>
    rw [hlex] at h
    obtain ⟨rfl, hrest⟩ := List.cons.inj h
    obtain ⟨front, back, rfl, hoffset, hfront, hback, hlast⟩ := ih hrest
    refine ⟨w ++ front, back, ?_, ?_, hcut front (List.prefix_append _ _) _ hfront, hback, hlast⟩
    · rw [hs, List.append_assoc]
    · rw [hoffset, List.length_append, Nat.add_assoc]

/-- Each lexeme of a text stands behind those before it. -/
theorem standsAt_lexemesFrom (h : lexemesFrom offset s = taken ++ l :: rest) :
    StandsAt offset s (taken.map Lexeme.symbol) l rest := by
  induction offset, s using lexemesFrom.induct generalizing taken l rest with
  | case1 offset =>
    refine standsAt_single (by rw [lexemesFrom]) rfl ?_ h
    rintro c ⟨⟩
  | case2 offset c s hb ih =>
    rw [lexemesFrom, if_pos hb] at h
    obtain ⟨front, back, rfl, hoffset, hfront, hback, hlast⟩ := ih h
    refine ⟨c :: front, back, rfl, ?_, .blank hb hfront, hback, hlast⟩
    rw [hoffset, List.length_cons]
    omega
  | case3 offset c s hb hp ih =>
    have hlex : lexemesFrom offset (c :: s) = ⟨.punct c, offset⟩ :: lexemesFrom (offset + [c].length) s := by
      rw [lexemesFrom, if_neg hb, if_pos hp]
      rfl
    refine standsAt_cons (w := [c]) rfl rfl ?_ hlex (fun front _ syms hfront => .punct hp hfront) ih h
    rintro d ⟨⟩
    simpa using hb
  | case4 offset c s hb hp hq hc =>
    refine standsAt_single (lexemesFrom_unclosed offset hq hc) rfl ?_ h
    rintro d ⟨⟩
    simpa using hb
  | case5 offset c s hb hp hq name tail hc ih =>
    obtain ⟨rfl, hend⟩ := closeQuote_eq_some_iff.1 hc
    rw [length_quoted] at ih
    refine standsAt_cons (w := c :: (doubled c name ++ [c])) (by simp) rfl ?_ (lexemesFrom_quoted offset hq hend) ?_
      ih h
    · rintro d ⟨⟩
      simpa using hb
    · intro front hfront syms hcut
      have hquoted : Cuts (c :: (doubled c name ++ c :: front)) (.ident name :: syms) :=
        .quoted hq (fun d hd => hend d (mem_head?_of_front hfront hd)) hcut
      simpa using hquoted
  | case6 offset c s hb hp hq ih =>
    have hplain : isPlain c = true := by simp [isPlain, hb, hp, hq]
    have hlength : offset + 1 + (s.takeWhile isPlain).length = offset + (c :: s.takeWhile isPlain).length := by
      rw [List.length_cons]
      omega
    have hlex := lexemesFrom_plain offset (s := s) hplain
    rw [hlength] at ih hlex
    refine standsAt_cons (w := c :: s.takeWhile isPlain) (by simp) rfl ?_ hlex ?_ ih h
    · rintro d ⟨⟩
      simpa using hb
    · exact fun front hfront syms hcut => cuts_run hplain hfront hcut

/-! ## Names that are not closed -/

/-- A quoted name is not closed if every quote in it is doubled. -/
theorem exists_doubled_of_closeQuote {q : UInt8} {s : Bytes} (h : closeQuote q s = none) :
    ∃ name, s = doubled q name := by
  fun_induction closeQuote q s with
  | case1 => exact ⟨[], rfl⟩
  | case2 => cases h
  | case3 c hc => exact ⟨[c], by rw [doubled_cons, if_neg hc]; rfl⟩
  | case4 rest ih =>
    obtain ⟨name, rfl⟩ := ih (Option.map_eq_none_iff.1 h)
    exact ⟨q :: name, by rw [doubled_cons, if_pos rfl]⟩
  | case5 => cases h
  | case6 c d rest hc ih =>
    obtain ⟨name, hname⟩ := ih (Option.map_eq_none_iff.1 h)
    exact ⟨c :: name, by rw [doubled_cons, if_neg hc, hname]⟩

/-- Where a name is not closed there is a quote, and every quote after it is doubled. -/
theorem exists_open_of_standsAt {syms : List Symbol} (h : StandsAt offset s syms l rest) (hl : l.symbol = .unclosed) :
    ∃ front q name, s = front ++ q :: doubled q name ∧ isQuote q = true ∧ l.offset = offset + front.length := by
  obtain ⟨front, back, rfl, hoffset, -, hback, hlex⟩ := h
  have hhead : (peek (lexemesFrom l.offset back)).symbol = .unclosed := by rw [hlex]; exact hl
  cases back with
  | nil =>
    rw [lexemesFrom] at hhead
    cases hhead
  | cons c s =>
    have hb : ¬ isBlank c = true := by simp [hback c rfl]
    by_cases hp : isPunct c = true
    · rw [lexemesFrom, if_neg hb, if_pos hp] at hhead
      cases hhead
    by_cases hq : isQuote c = true
    · cases hclose : closeQuote c s with
      | none =>
        obtain ⟨name, rfl⟩ := exists_doubled_of_closeQuote hclose
        exact ⟨front, c, name, rfl, hq, hoffset⟩
      | some r =>
        obtain ⟨rfl, hend⟩ := closeQuote_eq_some_iff.1 (show closeQuote c s = some (r.1, r.2) from hclose)
        rw [lexemesFrom_quoted l.offset hq hend] at hhead
        cases hhead
    · rw [lexemesFrom_plain l.offset (by simp [isPlain, hb, hp, hq])] at hhead
      cases hhead

/-! ## Writing symbols behind a text -/

theorem forall_mem_head?_append {P : UInt8 → Prop} {s t : Bytes} (hs : ∀ c ∈ s.head?, P c) (ht : ∀ c ∈ t.head?, P c) :
    ∀ c ∈ (s ++ t).head?, P c := by
  cases s with
  | nil => exact ht
  | cons d s => exact hs

/-- A text that is cut can be gone on with after a blank. -/
theorem Cuts.append {s t : Bytes} {a b : List Symbol} (hs : Cuts s a) (ht : Cuts (32 :: t) b) :
    Cuts (s ++ 32 :: t) (a ++ b) := by
  induction hs with
  | finish => exact ht
  | blank hc _ ih => exact .blank hc ih
  | punct hc _ ih => exact .punct hc ih
  | @quoted q name tail syms hq hend _ ih =>
    have hblank : ∀ c ∈ (32 :: t).head?, c ≠ q := by
      rintro c ⟨⟩ rfl
      exact (not_isBlank_of_isQuote hq).1 rfl
    have hcut : Cuts (q :: (doubled q name ++ q :: (tail ++ 32 :: t))) (.ident name :: (syms ++ b)) :=
      .quoted hq (forall_mem_head?_append hend hblank) ih
    simpa using hcut
  | @word w tail syms hne hw hend _ ih =>
    rw [List.append_assoc]
    refine .word hne hw (forall_mem_head?_append hend ?_) ih
    rintro c ⟨⟩
    rfl

/-- The symbol can be written: it is a name or one of the punctuators. -/
def Symbol.IsWritten : Symbol → Prop
  | .punct c => isPunct c = true
  | .ident _ => True
  | .unclosed | .finish => False

/-- What can be written has a text. -/
theorem exists_cuts {syms : List Symbol} (h : ∀ x ∈ syms, x.IsWritten) : ∃ s, Cuts (32 :: s) syms := by
  induction syms with
  | nil => exact ⟨[], .blank rfl .finish⟩
  | cons x syms ih =>
    obtain ⟨hx, hsyms⟩ := List.forall_mem_cons.1 h
    obtain ⟨s, hs⟩ := ih hsyms
    cases x with
    | punct c => exact ⟨c :: 32 :: s, .blank rfl (.punct hx hs)⟩
    | ident name =>
      refine ⟨39 :: (doubled 39 name ++ 39 :: 32 :: s), .blank rfl (.quoted rfl ?_ hs)⟩
      rintro c ⟨⟩
      decide
    | unclosed | finish => cases hx

end FormulaTypes.Spec
