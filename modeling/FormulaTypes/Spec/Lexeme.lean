import FormulaTypes.Bytes

/-!
# Lexemes of type texts

A type text is cut into punctuators, quoted names with doubled quotes, and runs of other bytes; blanks between them
are skipped. The list of lexemes ends with the end of the text, or with a quoted name that is not closed.
-/

namespace FormulaTypes.Spec

/-- The seven punctuators `* ! % : [ ] ,`. -/
def isPunct (c : UInt8) : Bool := c = 42 || c = 33 || c = 37 || c = 58 || c = 91 || c = 93 || c = 44

/-- Space, tab, line feed and carriage return. -/
def isBlank (c : UInt8) : Bool := c = 32 || c = 9 || c = 10 || c = 13

/-- The single and the double quote. -/
def isQuote (c : UInt8) : Bool := c = 39 || c = 34

/-- Bytes that need no quotes in a name. -/
def isPlain (c : UInt8) : Bool := !isPunct c && !isBlank c && !isQuote c

/-- What a lexeme is. -/
inductive Symbol where
  | punct (c : UInt8)
  | ident (text : Bytes)
  /-- A quoted name that is not closed. -/
  | unclosed
  /-- The end of the text. -/
  | finish
  deriving DecidableEq

/-- A symbol and where it starts. -/
structure Lexeme where
  symbol : Symbol
  offset : Nat
  deriving DecidableEq

/-- Reads a quoted name after its opening quote: the name and what follows the closing quote. A doubled quote stands
for one. -/
def closeQuote (q : UInt8) : Bytes → Option (Bytes × Bytes)
  | [] => none
  | [c] => if c = q then some ([], []) else none
  | c :: d :: rest =>
    if c = q then
      if d = q then (closeQuote q rest).map fun r => (q :: r.1, r.2) else some ([], d :: rest)
    else (closeQuote q (d :: rest)).map fun r => (c :: r.1, r.2)

theorem length_lt_of_closeQuote {q : UInt8} {s name rest : Bytes} (h : closeQuote q s = some (name, rest)) :
    rest.length < s.length := by
  fun_induction closeQuote q s generalizing name with
  | case1 => simp at h
  | case2 => simp_all
  | case3 => simp at h
  | case4 rest ih =>
    obtain ⟨r, hr, he⟩ := Option.map_eq_some_iff.1 h
    cases he
    have := ih hr
    simp
    omega
  | case5 => simp_all
  | case6 c d rest hc ih =>
    obtain ⟨r, hr, he⟩ := Option.map_eq_some_iff.1 h
    cases he
    have := ih hr
    simp at this ⊢
    omega

/-- The lexemes of a text that starts at an offset. -/
def lexemesFrom (offset : Nat) (s : Bytes) : List Lexeme :=
  match s with
  | [] => [⟨.finish, offset⟩]
  | c :: rest =>
    if isBlank c then lexemesFrom (offset + 1) rest
    else if isPunct c then ⟨.punct c, offset⟩ :: lexemesFrom (offset + 1) rest
    else if isQuote c then
      match h : closeQuote c rest with
      | none => [⟨.unclosed, offset⟩]
      | some (name, tail) => ⟨.ident name, offset⟩ :: lexemesFrom (offset + 1 + (rest.length - tail.length)) tail
    else
      ⟨.ident (c :: rest.takeWhile isPlain), offset⟩ ::
        lexemesFrom (offset + 1 + (rest.takeWhile isPlain).length) (rest.dropWhile isPlain)
termination_by s.length
decreasing_by
  · simp
  · simp
  · have := length_lt_of_closeQuote h
    simp
    omega
  · have := (List.dropWhile_suffix (l := rest) isPlain).length_le
    simp
    omega

/-- The lexemes of a text. -/
def lexemes (s : Bytes) : List Lexeme := lexemesFrom 0 s

end FormulaTypes.Spec
