import FormulaTypes.Proofs.Spec.Lexing
import FormulaTypes.Spec.Parser

/-!
# The grammar of type texts

`Spells syms t` says that the symbols are those of a text for the type `t`. The reader takes all such symbols:

* a reader of entries in brackets takes what its items take (`reads_readList`);
* the reader of types takes what the grammar spells (`reads_readType`);
* a text whose symbols spell a type parses as that type (`parse_of_spells`).
-/

namespace FormulaTypes.Spec

/-! ## The grammar -/

/-- An entry of a list as it is written: its name, the symbols of its value, and the value. -/
structure Entry (α : Type) where
  name : Bytes
  symbols : List Symbol
  value : α

/-- What an entry binds. -/
def Entry.bound {α : Type} (e : Entry α) : Bytes × α := (e.name, e.value)

/-- Entries with commas between them. -/
def listed {α : Type} : List (Entry α) → List Symbol
  | [] => []
  | [e] => .ident e.name :: .punct 58 :: e.symbols
  | e :: f :: rest => .ident e.name :: .punct 58 :: (e.symbols ++ .punct 44 :: listed (f :: rest))

/-- Entries in brackets. -/
def bracketed {α : Type} (entries : List (Entry α)) : List Symbol := .punct 91 :: (listed entries ++ [.punct 93])

/-- The symbol in front of the fields of an aggregate. -/
def mark : Shape → Symbol
  | .record => .punct 33
  | .table => .punct 42
  | .file => .ident [Kind.file.letter]
  | .largeImage => .ident [Kind.largeImage.letter]

/-- The entry holds the literal of a kind that its one symbol stands for. -/
def SpellsLiteral (k : Kind) (e : Entry Literal) : Prop :=
  ∃ text, e.symbols = [.ident text] ∧ literalOf k text = .ok e.value

/-- The symbols spell the type. -/
inductive Spells : List Symbol → Ty → Prop
  /-- A letter stands for a kind without further parts; records and tables have brackets even then. -/
  | plain {k : Kind} {form : Form Ty} (hk : k ≠ .record ∧ k ≠ .table) (h : Ty.plainForm? k = some form) :
      Spells [.ident [k.letter]] (Ty.ofForm form)
  | enum {k : Kind} {entries : List (Entry Literal)} (hk : k.isPrimitive = true)
      (h : ∀ e ∈ entries, SpellsLiteral k e) :
      Spells (.punct 37 :: .ident [k.letter] :: bracketed entries)
        (Ty.ofForm (.enum k (.ofList (entries.map Entry.bound))))
  | aggregate {shape : Shape} {entries : List (Entry Ty)} (h : ∀ e ∈ entries, Spells e.symbols e.value) :
      Spells (mark shape :: bracketed entries)
        (Ty.ofForm (.aggregate shape false (NameMap.ofList (entries.map Entry.bound))))

section Lists

variable {α : Type}

section Symbols

variable {P : Symbol → Prop} (hname : ∀ name, P (.ident name)) (hpunct : ∀ c, isPunct c = true → P (.punct c))

include hname hpunct

theorem forall_mem_listed {entries : List (Entry α)} (h : ∀ e ∈ entries, ∀ s ∈ e.symbols, P s) :
    ∀ s ∈ listed entries, P s := by
  fun_induction listed entries with
  | case1 =>
    intro s hs
    cases hs
  | case2 e =>
    intro s hs
    simp only [List.mem_cons] at hs
    rcases hs with rfl | rfl | hs
    · exact hname _
    · exact hpunct 58 rfl
    · exact h e List.mem_cons_self s hs
  | case3 e f rest ih =>
    intro s hs
    simp only [List.mem_cons, List.mem_append] at hs
    rcases hs with rfl | rfl | hs | rfl | hs
    · exact hname _
    · exact hpunct 58 rfl
    · exact h e List.mem_cons_self s hs
    · exact hpunct 44 rfl
    · exact ih (fun e' he' => h e' (List.mem_cons_of_mem _ he')) s hs

theorem forall_mem_bracketed {entries : List (Entry α)} (h : ∀ e ∈ entries, ∀ s ∈ e.symbols, P s) :
    ∀ s ∈ bracketed entries, P s := by
  intro s hs
  simp only [bracketed, List.mem_cons, List.mem_append, List.not_mem_nil, or_false] at hs
  rcases hs with rfl | hs | rfl
  · exact hpunct 91 rfl
  · exact forall_mem_listed hname hpunct h s hs
  · exact hpunct 93 rfl

/-- The symbols of a type are names and punctuators. -/
theorem forall_mem_of_spells {syms : List Symbol} {t : Ty} (h : Spells syms t) : ∀ s ∈ syms, P s := by
  induction h with
  | plain => exact List.forall_mem_singleton.2 (hname _)
  | @enum k entries _ h =>
    have hentries : ∀ e ∈ entries, ∀ s ∈ e.symbols, P s := by
      intro e he
      obtain ⟨text, hsymbols, -⟩ := h e he
      rw [hsymbols]
      exact List.forall_mem_singleton.2 (hname _)
    refine List.forall_mem_cons.2 ⟨hpunct 37 rfl, List.forall_mem_cons.2 ⟨hname _, ?_⟩⟩
    exact forall_mem_bracketed hname hpunct hentries
  | @aggregate shape entries _ ih =>
    refine List.forall_mem_cons.2 ⟨?_, forall_mem_bracketed hname hpunct ih⟩
    cases shape with
    | record => exact hpunct 33 rfl
    | table => exact hpunct 42 rfl
    | file | largeImage => exact hname _

end Symbols

/-- A list is no shorter than what it lists. -/
theorem length_le_length_listed (entries : List (Entry α)) : entries.length ≤ (listed entries).length := by
  fun_induction listed entries with
  | case1 => exact Nat.le_refl _
  | case2 => simp
  | case3 e f rest ih =>
    simp only [List.length_cons, List.length_append] at ih ⊢
    omega

/-- The symbols of a value are fewer than those of the list. -/
theorem length_symbols_lt {entries : List (Entry α)} {e : Entry α} (h : e ∈ entries) :
    e.symbols.length < (bracketed entries).length := by
  suffices e.symbols.length ≤ (listed entries).length by
    simp only [bracketed, List.length_cons, List.length_append, List.length_nil]
    omega
  fun_induction listed entries with
  | case1 => cases h
  | case2 =>
    rw [List.mem_singleton.1 h, List.length_cons, List.length_cons]
    omega
  | case3 e' f rest ih =>
    simp only [List.length_cons, List.length_append]
    rcases List.mem_cons.1 h with rfl | h
    · omega
    · have := ih h
      omega

end Lists

theorem isInner_of_spells {syms : List Symbol} {t : Ty} (h : Spells syms t) : ∀ s ∈ syms, s.IsInner :=
  forall_mem_of_spells (fun _ => trivial) (fun _ _ => trivial) h

/-- No name is left open in the symbols of a type. -/
theorem unclosed_not_mem {syms : List Symbol} {t : Ty} (h : Spells syms t) : .unclosed ∉ syms :=
  fun hm => isInner_of_spells h _ hm

/-! ## Taking lexemes -/

section Steps

variable {l : Lexeme} {ls : List Lexeme}

theorem advance_cons (h : .unclosed ∉ ls.map Lexeme.symbol) : advance (l :: ls) = .ok ls := by
  cases ls with
  | nil => rfl
  | cons l' ls =>
    obtain ⟨s, offset⟩ := l'
    cases s with
    | unclosed => simp at h
    | punct | ident | finish => rfl

theorem expect_cons {c : UInt8} (hl : l.symbol = .punct c) (h : .unclosed ∉ ls.map Lexeme.symbol) :
    expect c (l :: ls) = .ok ls := by
  have hpeek : (peek (l :: ls)).symbol = .punct c := hl
  rw [expect, if_pos hpeek, advance_cons h]

theorem readName_cons {name : Bytes} (hl : l.symbol = .ident name) (h : .unclosed ∉ ls.map Lexeme.symbol) :
    readName (l :: ls) = .ok (name, ls) := by
  have hpeek : (peek (l :: ls)).symbol = .ident name := hl
  rw [readName, hpeek]
  dsimp only
  rw [advance_cons h]
  rfl

end Steps

/-! ## Readers that take symbols -/

/-- What may follow a type or a literal: the end of the text, a comma or a closing bracket. -/
def Stops (tail : List Symbol) : Prop := ∃ s rest, tail = s :: rest ∧ (s = .finish ∨ s = .punct 44 ∨ s = .punct 93)

/-- In front of what may follow, the reader takes the symbols for the value. -/
def Reads {α : Type} (reader : Reader α) (syms : List Symbol) (a : α) : Prop :=
  ∀ ls tail, ls.map Lexeme.symbol = syms ++ tail → .unclosed ∉ ls.map Lexeme.symbol → Stops tail →
    ∃ rest, reader ls = .ok (a, rest) ∧ rest.map Lexeme.symbol = tail

/-- What is whole has only whole endings. -/
theorem unclosed_not_mem_of_append (front : List Symbol) {syms rest : List Symbol} (hopen : .unclosed ∉ syms)
    (hsplit : syms = front ++ rest) : .unclosed ∉ rest := by
  intro hm
  refine hopen ?_
  rw [hsplit]
  exact List.mem_append_right _ hm

section Readers

variable {α : Type} {item : Reader α} {entries : List (Entry α)}

/-- A reader of entries takes one entry, and goes on as the symbol after it says. -/
theorem readEntries_succ {e : Entry α} (h : Reads item e.symbols e.value) (fuel : Nat) {ls : List Lexeme}
    (tail : List Symbol) (hls : ls.map Lexeme.symbol = .ident e.name :: .punct 58 :: (e.symbols ++ tail))
    (hopen : .unclosed ∉ ls.map Lexeme.symbol) (hstop : Stops tail) :
    ∃ rest, rest.map Lexeme.symbol = tail ∧ readEntries item (fuel + 1) ls =
      if (peek rest).symbol = .punct 44 then do
        let ls ← advance rest
        let (more, ls) ← readEntries item fuel ls
        return (e.bound :: more, ls)
      else do
        let ls ← expect 93 rest
        return ([e.bound], ls) := by
  obtain ⟨name, ls, rfl, hname, hls⟩ := List.map_eq_cons_iff.1 hls
  obtain ⟨colon, ls, rfl, hcolon, hls⟩ := List.map_eq_cons_iff.1 hls
  simp only [List.map_cons, List.mem_cons, not_or] at hopen
  obtain ⟨rest, hitem, hrest⟩ := h ls tail hls hopen.2.2 hstop
  refine ⟨rest, hrest, ?_⟩
  rw [readEntries, readName_cons hname (by simpa using hopen.2)]
  simp only [bind, Except.bind]
  rw [expect_cons hcolon hopen.2.2]
  dsimp only
  rw [hitem]
  rfl

/-- A reader of entries takes what its items take, up to the closing bracket. -/
theorem readEntries_listed (h : ∀ e ∈ entries, Reads item e.symbols e.value) (hne : entries ≠ []) {fuel : Nat}
    (hfuel : entries.length ≤ fuel) {ls : List Lexeme} {tail : List Symbol}
    (hls : ls.map Lexeme.symbol = listed entries ++ .punct 93 :: tail) (hopen : .unclosed ∉ ls.map Lexeme.symbol) :
    ∃ rest, readEntries item fuel ls = .ok (entries.map Entry.bound, rest) ∧ rest.map Lexeme.symbol = tail := by
  fun_induction listed entries generalizing fuel ls with
  | case1 => exact absurd rfl hne
  | case2 e =>
    obtain ⟨fuel, rfl⟩ : ∃ f, fuel = f + 1 := ⟨fuel - 1, by simp at hfuel; omega⟩
    obtain ⟨rest, hrest, hread⟩ := readEntries_succ (h e List.mem_cons_self) fuel (.punct 93 :: tail) hls hopen
      ⟨_, _, rfl, .inr (.inr rfl)⟩
    obtain ⟨close, rest, rfl, hclose, htail⟩ := List.map_eq_cons_iff.1 hrest
    have hcomma : ¬ (peek (close :: rest)).symbol = .punct 44 := by
      rw [show (peek (close :: rest)).symbol = .punct 93 from hclose]
      decide
    have hopen' : Symbol.unclosed ∉ rest.map Lexeme.symbol :=
      unclosed_not_mem_of_append (listed [e] ++ [.punct 93]) hopen (by rw [hls, htail]; simp [listed])
    refine ⟨rest, ?_, htail⟩
    rw [hread, if_neg hcomma, expect_cons hclose hopen']
    rfl
  | case3 e f more ih =>
    obtain ⟨fuel, rfl⟩ : ∃ f, fuel = f + 1 := ⟨fuel - 1, by simp at hfuel; omega⟩
    obtain ⟨rest, hrest, hread⟩ := readEntries_succ (h e List.mem_cons_self) fuel
      (.punct 44 :: (listed (f :: more) ++ .punct 93 :: tail)) (by simpa using hls) hopen ⟨_, _, rfl, .inr (.inl rfl)⟩
    obtain ⟨comma, rest, rfl, hcomma, htail⟩ := List.map_eq_cons_iff.1 hrest
    have hopen' : Symbol.unclosed ∉ rest.map Lexeme.symbol :=
      unclosed_not_mem_of_append (.ident e.name :: .punct 58 :: (e.symbols ++ [.punct 44])) hopen
        (by rw [hls, htail]; simp)
    obtain ⟨final, hmore, hfinal⟩ := ih (fun e' he' => h e' (List.mem_cons_of_mem _ he')) (List.cons_ne_nil _ _)
      (by simpa using hfuel) htail hopen'
    refine ⟨final, ?_, hfinal⟩
    rw [hread, if_pos (show (peek (comma :: rest)).symbol = .punct 44 from hcomma), advance_cons hopen']
    simp only [bind, Except.bind]
    rw [hmore]
    rfl

/-- A reader of a list takes the entries in brackets that its items take. -/
theorem reads_readList (h : ∀ e ∈ entries, Reads item e.symbols e.value) :
    Reads (readList item) (bracketed entries) (entries.map Entry.bound) := by
  intro ls tail hls hopen _
  rw [bracketed, List.cons_append, List.append_assoc, List.singleton_append] at hls
  obtain ⟨bracket, ls, rfl, hbracket, hls⟩ := List.map_eq_cons_iff.1 hls
  simp only [List.map_cons, List.mem_cons, not_or] at hopen
  rw [readList, expect_cons hbracket hopen.2]
  simp only [bind, Except.bind]
  cases entries with
  | nil =>
    obtain ⟨close, ls, rfl, hclose, hls⟩ := List.map_eq_cons_iff.1 hls
    simp only [List.map_cons, List.mem_cons, not_or] at hopen
    rw [if_pos (show (peek (close :: ls)).symbol = .punct 93 from hclose), advance_cons hopen.2.2]
    exact ⟨ls, rfl, hls⟩
  | cons e entries =>
    have hfirst : ¬ (peek ls).symbol = .punct 93 := by
      obtain ⟨syms, hsyms⟩ : ∃ syms, listed (e :: entries) = .ident e.name :: syms := by
        cases entries <;> exact ⟨_, rfl⟩
      rw [hsyms] at hls
      obtain ⟨name, ls, rfl, hname, -⟩ := List.map_eq_cons_iff.1 hls
      rw [show (peek (name :: ls)).symbol = .ident e.name from hname]
      exact fun hne => by cases hne
    have hfuel : (e :: entries).length ≤ ls.length := by
      have hlength := congrArg List.length hls
      have := length_le_length_listed (e :: entries)
      rw [List.length_map, List.length_append] at hlength
      omega
    rw [if_neg hfirst]
    exact readEntries_listed h (List.cons_ne_nil _ _) hfuel hls hopen.2

end Readers

/-- Symbols that stand for one literal are read as it. -/
theorem reads_readLiteral {k : Kind} {e : Entry Literal} (h : SpellsLiteral k e) :
    Reads (readLiteral k) e.symbols e.value := by
  intro ls tail hls hopen _
  obtain ⟨text, hsymbols, hliteral⟩ := h
  rw [hsymbols] at hls
  obtain ⟨l, ls, rfl, hl, hls⟩ := List.map_eq_cons_iff.1 hls
  simp only [List.map_cons, List.mem_cons, not_or] at hopen
  refine ⟨ls, ?_, hls⟩
  rw [readLiteral, readName_cons hl hopen.2]
  simp only [bind, Except.bind]
  rw [hliteral]
  rfl

/-! ## Types -/

theorem reads_readFields {item : Reader Ty} {entries : List (Entry Ty)} (shape : Shape)
    (h : ∀ e ∈ entries, Reads item e.symbols e.value) :
    Reads (readFields item shape) (bracketed entries)
      (Ty.ofForm (.aggregate shape false (NameMap.ofList (entries.map Entry.bound)))) := by
  intro ls tail hls hopen hstop
  obtain ⟨rest, hread, hrest⟩ := reads_readList h ls tail hls hopen hstop
  refine ⟨rest, ?_, hrest⟩
  rw [readFields, hread]
  rfl

theorem reads_readEnum {k : Kind} (hk : k.isPrimitive = true) {entries : List (Entry Literal)}
    (h : ∀ e ∈ entries, SpellsLiteral k e) :
    Reads readEnum (.ident [k.letter] :: bracketed entries)
      (Ty.ofForm (.enum k (.ofList (entries.map Entry.bound)))) := by
  intro ls tail hls hopen hstop
  obtain ⟨l, ls, rfl, hl, hls⟩ := List.map_eq_cons_iff.1 hls
  simp only [List.map_cons, List.mem_cons, not_or] at hopen
  obtain ⟨rest, hread, hrest⟩ := reads_readList (fun e he => reads_readLiteral (h e he)) ls tail hls hopen.2 hstop
  have hvalid : k.isValid = true := by
    cases k <;> first | rfl | cases hk
  have hletter : (Kind.ofLetter? [k.letter]).filter Kind.isPrimitive = some k := by
    rw [Kind.ofLetter?_letter k hvalid, Option.filter_some, if_pos hk]
  refine ⟨rest, ?_, hrest⟩
  rw [readEnum, readName_cons hl hopen.2]
  simp only [bind, Except.bind]
  rw [hletter]
  dsimp only
  rw [hread]
  rfl

/-- A letter alone is read as the kind that goes without further parts. -/
theorem reads_letter {k : Kind} {form : Form Ty} (hk : k ≠ .record ∧ k ≠ .table) (h : Ty.plainForm? k = some form)
    (item : Reader Ty) : Reads (readLettered item [k.letter]) [.ident [k.letter]] (Ty.ofForm form) := by
  intro ls tail hls hopen hstop
  obtain ⟨l, ls, rfl, -, rfl⟩ := List.map_eq_cons_iff.1 hls
  simp only [List.map_cons, List.mem_cons, not_or] at hopen
  have hvalid : k.isValid = true := by
    cases k <;> first | rfl | cases h
  have hnext : decide ((peek ls).symbol = .punct 91) = false := by
    obtain ⟨s, rest, hs, hstop⟩ := hstop
    obtain ⟨l', ls, rfl, hl', -⟩ := List.map_eq_cons_iff.1 hs
    rw [show (peek (l' :: ls)).symbol = s from hl']
    rcases hstop with rfl | rfl | rfl <;> rfl
  refine ⟨ls, ?_, rfl⟩
  rw [readLettered, Kind.ofLetter?_letter k hvalid]
  split
  · next hnone => cases hnone
  · next hrecord => cases hrecord; exact absurd rfl hk.1
  · next htable => cases htable; exact absurd rfl hk.2
  · next henum => cases henum; cases h
  · next hlazy => cases hlazy; cases h
  · next hlazy => cases hlazy; cases h
  · next k' _ _ _ _ _ hk' =>
    cases hk'
    rw [advance_cons hopen.2]
    simp only [bind, Except.bind]
    rw [hnext]
    split
    · contradiction
    · contradiction
    · rw [h]
      rfl

/-- The mark of an aggregate makes the reader go on with its fields. -/
theorem readType_mark {fuel : Nat} (shape : Shape) {l : Lexeme} {ls : List Lexeme} (hl : l.symbol = mark shape)
    (hopen : .unclosed ∉ ls.map Lexeme.symbol) (hnext : (peek ls).symbol = .punct 91) :
    readType (fuel + 1) (l :: ls) = readFields (readType fuel) shape ls := by
  have hpeek : (peek (l :: ls)).symbol = mark shape := hl
  rw [readType, hpeek]
  cases shape with
  | record | table =>
    dsimp only [mark]
    rw [advance_cons hopen]
    rfl
  | file =>
    dsimp only [mark]
    rw [readLettered, Kind.ofLetter?_letter .file rfl]
    dsimp only
    rw [advance_cons hopen]
    simp only [bind, Except.bind]
    rw [decide_eq_true hnext]
  | largeImage =>
    dsimp only [mark]
    rw [readLettered, Kind.ofLetter?_letter .largeImage rfl]
    dsimp only
    rw [advance_cons hopen]
    simp only [bind, Except.bind]
    rw [decide_eq_true hnext]

/-- The reader of types takes what the grammar spells. -/
theorem reads_readType {syms : List Symbol} {t : Ty} (h : Spells syms t) {fuel : Nat} (hfuel : syms.length ≤ fuel) :
    Reads (readType fuel) syms t := by
  induction h generalizing fuel with
  | plain hk hform =>
    obtain ⟨fuel, rfl⟩ : ∃ f, fuel = f + 1 := ⟨fuel - 1, by simp at hfuel; omega⟩
    intro ls tail hls hopen hstop
    obtain ⟨l, ls', rfl, hl, -⟩ := List.map_eq_cons_iff.1 hls
    have hpeek := show (peek (l :: ls')).symbol = _ from hl
    rw [readType, hpeek]
    exact reads_letter hk hform _ _ _ hls hopen hstop
  | enum hk hentries =>
    obtain ⟨fuel, rfl⟩ : ∃ f, fuel = f + 1 := ⟨fuel - 1, by simp at hfuel; omega⟩
    intro ls tail hls hopen hstop
    obtain ⟨l, ls, rfl, hl, hls⟩ := List.map_eq_cons_iff.1 hls
    simp only [List.map_cons, List.mem_cons, not_or] at hopen
    have hpeek := show (peek (l :: ls)).symbol = _ from hl
    rw [readType, hpeek, advance_cons hopen.2]
    exact reads_readEnum hk hentries ls tail hls hopen.2 hstop
  | @aggregate shape entries _ ih =>
    obtain ⟨fuel, rfl⟩ : ∃ f, fuel = f + 1 := ⟨fuel - 1, by simp at hfuel; omega⟩
    intro ls tail hls hopen hstop
    obtain ⟨l, ls, rfl, hl, hls⟩ := List.map_eq_cons_iff.1 hls
    simp only [List.map_cons, List.mem_cons, not_or] at hopen
    have hnext : (peek ls).symbol = .punct 91 := by
      obtain ⟨l', ls, rfl, hl', -⟩ := List.map_eq_cons_iff.1 hls
      exact hl'
    have hitems : ∀ e ∈ entries, Reads (readType fuel) e.symbols e.value := by
      intro e he
      have := length_symbols_lt he
      rw [List.length_cons] at hfuel
      exact ih e he (by omega)
    rw [readType_mark shape hl hopen.2 hnext]
    exact reads_readFields shape hitems ls tail hls hopen.2 hstop

/-- A text whose symbols spell a type stands for that type. -/
theorem parse_of_spells {s : Bytes} {syms : List Symbol} {t : Ty} (h : Spells syms t)
    (hs : symbols s = syms ++ [.finish]) : parse s = .ok t := by
  have hopen : .unclosed ∉ (lexemes s).map Lexeme.symbol := by
    rw [show (lexemes s).map Lexeme.symbol = syms ++ [.finish] from hs, List.mem_append]
    rintro (hm | hm)
    · exact unclosed_not_mem h hm
    · simp at hm
  have hfuel : syms.length ≤ (lexemes s).length := by
    have := congrArg List.length hs
    rw [symbols, List.length_map, List.length_append] at this
    omega
  obtain ⟨rest, hread, hrest⟩ := reads_readType h hfuel (lexemes s) [.finish] hs hopen ⟨_, _, rfl, .inl rfl⟩
  obtain ⟨l, rest, rfl, hl, -⟩ := List.map_eq_cons_iff.1 hrest
  have hfirst : ¬ (peek (lexemes s)).symbol = .unclosed := by
    intro hpeek
    refine hopen ?_
    cases hls : lexemes s with
    | nil =>
      rw [symbols, hls] at hs
      simp at hs
    | cons l' ls =>
      rw [hls] at hpeek
      exact List.mem_cons.2 (.inl hpeek.symm)
  have hall : readAll (lexemes s) = .ok t := by
    rw [readAll, if_neg hfirst]
    simp only [bind, Except.bind, pure, Except.pure]
    rw [hread]
    exact if_pos hl
  rw [parse, hall]

end FormulaTypes.Spec
