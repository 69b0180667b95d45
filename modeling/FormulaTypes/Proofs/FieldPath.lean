import FormulaTypes.FieldPath
import FormulaTypes.Proofs.Spec.Lexing

/-!
# Which paths are written alike

The text of a path does not always tell the path. A name with a dot is put in quotes, but a name that has quotes of its
own and no dot is not, so the two names `'a` and `b'` are written as the one name `a.b` is; and a single empty name
leaves as little as no name at all.

* Two paths are written alike exactly if their texts have the same pieces between dots (`splitOn_text`), the two paths
  without any bytes aside (`IsBlank`).
* Where no name starts with a quote and goes without a dot (`IsClear`), the first byte of a name says whether it is in
  quotes, and the text is read back name by name (`eq_of_text_eq`).
-/

namespace FormulaTypes.FieldPath

/-- The parts of the text between dots. A name without a dot is one part, any other one is cut up with its quotes. -/
def pieces (p : FieldPath) : List Bytes := p.flatMap fun name => (nameText name).splitOn 46

/-- The path without names, and the path of one empty name. -/
def IsBlank (p : FieldPath) : Prop := p = [] ∨ p = [[]]

/-- No name starts with a quote unless it has a dot. -/
def IsClear (p : FieldPath) : Prop := ∀ name ∈ p, name.head? = some 39 → 46 ∈ name

instance (p : FieldPath) : Decidable p.IsBlank := inferInstanceAs (Decidable (_ ∨ _))

instance (p : FieldPath) : Decidable p.IsClear := inferInstanceAs (Decidable (∀ name ∈ p, _))

/-! ## Names -/

theorem nameText_of_dot {name : Bytes} (h : 46 ∈ name) : nameText name = 39 :: (Spec.doubled 39 name ++ [39]) := by
  rw [nameText, if_pos (List.contains_iff_mem.2 h)]
  rfl

theorem nameText_of_not_dot {name : Bytes} (h : 46 ∉ name) : nameText name = name := by
  rw [nameText, if_neg (by simpa using h)]

theorem nameText_eq_nil_iff {name : Bytes} : nameText name = [] ↔ name = [] := by
  by_cases h : 46 ∈ name
  · have hne : name ≠ [] := List.ne_nil_of_mem h
    simp [nameText_of_dot h, hne]
  · rw [nameText_of_not_dot h]

/-- A clear name in quotes is the only one whose text starts with a quote. -/
theorem head?_nameText {name : Bytes} (h : name.head? = some 39 → 46 ∈ name) {tail : Bytes}
    (ht : tail.head? ≠ some 39) : (nameText name ++ tail).head? = some 39 ↔ 46 ∈ name := by
  by_cases hdot : 46 ∈ name
  · simp [nameText_of_dot hdot, hdot]
  · have hfirst : name.head? ≠ some 39 := fun hq => hdot (h hq)
    rw [nameText_of_not_dot hdot]
    cases name with
    | nil => simpa [hdot] using ht
    | cons c name => simpa [hdot] using hfirst

/-! ## Pieces -/

/-- The text after the first name: nothing, or a dot and the text of the rest. -/
def tailText : FieldPath → Bytes
  | [] => []
  | rest => 46 :: text rest

theorem text_cons (name : Bytes) (rest : FieldPath) : text (name :: rest) = nameText name ++ tailText rest := by
  cases rest with
  | nil => exact (List.append_nil _).symm
  | cons => rfl

theorem head?_tailText (p : FieldPath) : ∀ c ∈ (tailText p).head?, c = 46 := by
  cases p with
  | nil => rintro c ⟨⟩
  | cons =>
    rintro c ⟨⟩
    rfl

theorem splitOn_text {p : FieldPath} (h : p ≠ []) : p.text.splitOn 46 = p.pieces := by
  induction p with
  | nil => exact absurd rfl h
  | cons name rest ih =>
    rw [text_cons, pieces, List.flatMap_cons]
    cases rest with
    | nil => rw [tailText, List.append_nil, List.flatMap_nil, List.append_nil]
    | cons next rest =>
      have htail : tailText (next :: rest) = 46 :: text (next :: rest) := rfl
      rw [htail, List.splitOn_append_cons_self, ih (List.cons_ne_nil _ _), pieces]

theorem text_eq_nil_iff (p : FieldPath) : p.text = [] ↔ p.IsBlank := by
  rw [IsBlank]
  cases p with
  | nil => simp [text]
  | cons name rest =>
    rw [text_cons, List.append_eq_nil_iff, nameText_eq_nil_iff]
    cases rest <;> simp [tailText]

theorem pieces_eq_nil_iff (p : FieldPath) : p.pieces = [] ↔ p = [] := by
  cases p with
  | nil => exact iff_of_true rfl rfl
  | cons name rest =>
    rw [← splitOn_text (List.cons_ne_nil name rest)]
    exact iff_of_false (List.splitOn_ne_nil _ _) (List.cons_ne_nil _ _)

/-- The pieces of a text, with dots between them again. -/
theorem text_eq_of_pieces_eq {p q : FieldPath} (h : p.pieces = q.pieces) : p.text = q.text := by
  by_cases hp : p = []
  · have hq : q = [] := by rw [← pieces_eq_nil_iff, ← h, hp]; rfl
    rw [hp, hq]
  · have hq : q ≠ [] := by rwa [ne_eq, ← pieces_eq_nil_iff, ← h, pieces_eq_nil_iff]
    calc p.text = [46].intercalate (p.text.splitOn 46) := (List.intercalate_splitOn 46).symm
      _ = [46].intercalate (q.text.splitOn 46) := by rw [splitOn_text hp, splitOn_text hq, h]
      _ = q.text := List.intercalate_splitOn 46

/-- Paths that are written alike are both blank, or neither goes without names. -/
theorem blank_or_ne_nil_of_text_eq {p q : FieldPath} (h : p.text = q.text) :
    p.IsBlank ∧ q.IsBlank ∨ p ≠ [] ∧ q ≠ [] := by
  by_cases hp : p.IsBlank
  · exact .inl ⟨hp, by rwa [← text_eq_nil_iff, ← h, text_eq_nil_iff]⟩
  · have hq : ¬ q.IsBlank := by rwa [← text_eq_nil_iff, ← h, text_eq_nil_iff]
    exact .inr ⟨fun hnil => hp (.inl hnil), fun hnil => hq (.inl hnil)⟩

theorem text_eq_of_isBlank {p q : FieldPath} (h : p.IsBlank ∧ q.IsBlank) : p.text = q.text := by
  rw [(text_eq_nil_iff p).2 h.1, (text_eq_nil_iff q).2 h.2]

/-- Paths are written alike if they have the same pieces, or no bytes at all. -/
theorem text_eq_iff_pieces_eq (p q : FieldPath) :
    p.text = q.text ↔ p.pieces = q.pieces ∨ p.IsBlank ∧ q.IsBlank := by
  constructor
  · intro h
    rcases blank_or_ne_nil_of_text_eq h with hblank | ⟨hp, hq⟩
    · exact .inr hblank
    · rw [← splitOn_text hp, ← splitOn_text hq, h]
      exact .inl rfl
  · rintro (h | h)
    · exact text_eq_of_pieces_eq h
    · exact text_eq_of_isBlank h

/-- No part between dots has a dot. -/
theorem not_dot_of_mem_splitOn (s : Bytes) : ∀ piece ∈ s.splitOn 46, 46 ∉ piece := by
  by_cases h : 46 ∈ s
  · obtain ⟨front, back, rfl, hfront⟩ := List.eq_append_cons_of_mem h
    rw [List.splitOn_append_cons_self, List.splitOn_eq_singleton hfront]
    exact List.forall_mem_cons.2 ⟨hfront, not_dot_of_mem_splitOn back⟩
  · rw [List.splitOn_eq_singleton h]
    exact List.forall_mem_singleton.2 h
termination_by s.length

theorem not_dot_of_mem_pieces {p : FieldPath} {piece : Bytes} (h : piece ∈ p.pieces) : 46 ∉ piece := by
  obtain ⟨name, -, hpiece⟩ := List.mem_flatMap.1 h
  exact not_dot_of_mem_splitOn _ piece hpiece

/-- Names without dots are the pieces of their path. -/
theorem pieces_of_not_dot {p : FieldPath} (h : ∀ name ∈ p, 46 ∉ name) : p.pieces = p := by
  induction p with
  | nil => rfl
  | cons name rest ih =>
    obtain ⟨hname, hrest⟩ := List.forall_mem_cons.1 h
    rw [pieces, List.flatMap_cons, nameText_of_not_dot hname, List.splitOn_eq_singleton hname]
    exact congrArg (name :: ·) (ih hrest)

/-- The pieces of a path with a dot in a name are another path that is written alike. -/
theorem text_pieces {p : FieldPath} (h : ∃ name ∈ p, 46 ∈ name) : p.pieces ≠ p ∧ text p.pieces = p.text := by
  refine ⟨fun hsame => ?_, text_eq_of_pieces_eq (pieces_of_not_dot fun _ => not_dot_of_mem_pieces)⟩
  obtain ⟨name, hname, hdot⟩ := h
  rw [← hsame] at hname
  exact not_dot_of_mem_pieces hname hdot

/-! ## Reading back -/

/-- A part without dots in front of a dot or of nothing can be told. -/
theorem append_inj_of_not_mem {a b s t : Bytes} (ha : 46 ∉ a) (hb : 46 ∉ b) (hs : ∀ c ∈ s.head?, c = 46)
    (ht : ∀ c ∈ t.head?, c = 46) (h : a ++ s = b ++ t) : a = b ∧ s = t := by
  rcases List.append_eq_append_iff.1 h with ⟨more, rfl, rfl⟩ | ⟨more, rfl, rfl⟩
  · cases more with
    | nil => exact ⟨(List.append_nil a).symm, rfl⟩
    | cons c more =>
      obtain rfl := hs c rfl
      exact absurd (List.mem_append_right a List.mem_cons_self) hb
  · cases more with
    | nil => exact ⟨List.append_nil b, rfl⟩
    | cons c more =>
      obtain rfl := ht c rfl
      exact absurd (List.mem_append_right b List.mem_cons_self) ha

/-- A name in quotes in front of a dot or of nothing can be told. -/
theorem doubled_inj {a b s t : Bytes} (hs : ∀ c ∈ s.head?, c = 46) (ht : ∀ c ∈ t.head?, c = 46)
    (h : Spec.doubled 39 a ++ 39 :: s = Spec.doubled 39 b ++ 39 :: t) : a = b ∧ s = t := by
  have hclose : ∀ {name tail : Bytes}, (∀ c ∈ tail.head?, c = 46) →
      Spec.closeQuote 39 (Spec.doubled 39 name ++ 39 :: tail) = some (name, tail) := by
    intro name tail htail
    refine Spec.closeQuote_eq_some_iff.2 ⟨rfl, fun c hc => ?_⟩
    rw [htail c hc]
    decide
  have hread := (hclose hs).symm.trans ((congrArg _ h).trans (hclose ht))
  simpa using hread

/-- The first name of a path can be told, and so can what follows it. -/
theorem nameText_append_inj {a b s t : Bytes} (ha : a.head? = some 39 → 46 ∈ a) (hb : b.head? = some 39 → 46 ∈ b)
    (hs : ∀ c ∈ s.head?, c = 46) (ht : ∀ c ∈ t.head?, c = 46) (h : nameText a ++ s = nameText b ++ t) :
    a = b ∧ s = t := by
  have hstart : ∀ {tail : Bytes}, (∀ c ∈ tail.head?, c = 46) → tail.head? ≠ some 39 := by
    intro tail htail hq
    cases htail 39 hq
  -- the first byte says of both names whether they are in quotes
  have hdots : 46 ∈ a ↔ 46 ∈ b := by rw [← head?_nameText ha (hstart hs), h, head?_nameText hb (hstart ht)]
  by_cases hdot : 46 ∈ a
  · rw [nameText_of_dot hdot, nameText_of_dot (hdots.1 hdot)] at h
    exact doubled_inj hs ht (by simpa using h)
  · have hdot' : 46 ∉ b := fun hmem => hdot (hdots.2 hmem)
    rw [nameText_of_not_dot hdot, nameText_of_not_dot hdot'] at h
    exact append_inj_of_not_mem hdot hdot' hs ht h

/-- The induction is on the names; those of a path that is not empty end with it. -/
theorem eq_of_text_eq {p q : FieldPath} (hp : p.IsClear) (hq : q.IsClear) (hne : p ≠ []) (hne' : q ≠ [])
    (h : p.text = q.text) : p = q := by
  induction p generalizing q with
  | nil => exact absurd rfl hne
  | cons a p ih =>
    obtain ⟨b, q, rfl⟩ := List.exists_cons_of_ne_nil hne'
    obtain ⟨ha, hprest⟩ := List.forall_mem_cons.1 hp
    obtain ⟨hb, hqrest⟩ := List.forall_mem_cons.1 hq
    rw [text_cons, text_cons] at h
    obtain ⟨rfl, htails⟩ := nameText_append_inj ha hb (head?_tailText p) (head?_tailText q) h
    cases p with
    | nil =>
      cases q with
      | nil => rfl
      | cons => cases htails
    | cons a' p =>
      cases q with
      | nil => cases htails
      | cons b' q =>
        have hrest : a' :: p = b' :: q :=
          ih hprest hqrest (List.cons_ne_nil _ _) (List.cons_ne_nil _ _) (List.cons.inj htails).2
        rw [hrest]

/-- Pushing names onto the empty path gives the path of these names. -/
theorem foldl_push (names : List Bytes) : names.foldl push [] = names := by
  suffices ∀ p : FieldPath, names.foldl push p = p ++ names from this []
  induction names with
  | nil => exact fun p => (List.append_nil p).symm
  | cons name names ih =>
    intro p
    rw [List.foldl_cons, ih, push, List.append_assoc, List.singleton_append]

/-- **Which paths are written alike.** Two paths are written alike exactly if their texts have the same pieces between
dots or both are blank; so a path with a dot in a name is written as another path is. If no name starts with a quote and
goes without a dot, then only the same paths are written alike, and the two blank ones. -/
theorem text_push_eq_iff (p q : List Bytes) :
    (text (p.foldl push []) = text (q.foldl push []) ↔ pieces p = pieces q ∨ IsBlank p ∧ IsBlank q) ∧
      ((∃ name ∈ p, 46 ∈ name) → pieces p ≠ p ∧ text ((pieces p).foldl push []) = text (p.foldl push [])) ∧
      (IsClear p → IsClear q →
        (text (p.foldl push []) = text (q.foldl push []) ↔ p = q ∨ IsBlank p ∧ IsBlank q)) ∧
      (text (p.foldl push []) = [] ↔ IsBlank p) := by
  rw [foldl_push, foldl_push, foldl_push]
  refine ⟨text_eq_iff_pieces_eq p q, text_pieces, fun hp hq => ⟨fun h => ?_, ?_⟩, text_eq_nil_iff p⟩
  · rcases blank_or_ne_nil_of_text_eq h with hblank | ⟨hne, hne'⟩
    · exact .inr hblank
    · exact .inl (eq_of_text_eq hp hq hne hne' h)
  · rintro (rfl | h)
    · rfl
    · exact text_eq_of_isBlank h

/-- The paths `it's` `a.b` and `it's.a` `b` are told apart by their quotes. -/
theorem text_push_ne_dottedNames :
    IsClear [Bytes.ofString "it's", Bytes.ofString "a.b"] ∧ IsClear [Bytes.ofString "it's.a", Bytes.ofString "b"] ∧
      (∃ name ∈ [Bytes.ofString "it's", Bytes.ofString "a.b"], (46 : UInt8) ∈ name) ∧
      pieces [Bytes.ofString "it's", Bytes.ofString "a.b"] ≠ [Bytes.ofString "it's", Bytes.ofString "a.b"] ∧
      text ([Bytes.ofString "it's", Bytes.ofString "a.b"].foldl push []) ≠
        text ([Bytes.ofString "it's.a", Bytes.ofString "b"].foldl push []) := by
  obtain ⟨-, htwin, hclear, -⟩ :=
    text_push_eq_iff [Bytes.ofString "it's", Bytes.ofString "a.b"] [Bytes.ofString "it's.a", Bytes.ofString "b"]
  have hp : IsClear [Bytes.ofString "it's", Bytes.ofString "a.b"] := by decide
  have hq : IsClear [Bytes.ofString "it's.a", Bytes.ofString "b"] := by decide
  have hdot : ∃ name ∈ [Bytes.ofString "it's", Bytes.ofString "a.b"], (46 : UInt8) ∈ name := by decide
  refine ⟨hp, hq, hdot, (htwin hdot).1, fun h => ?_⟩
  have hsame := (hclear hp hq).1 h
  revert hsame
  decide

/-- The name `a.b` is written as the two names `'a` and `b'` are, and an empty name as no name is. -/
theorem text_push_not_injective :
    text ([Bytes.ofString "a.b"].foldl push []) = text ([Bytes.ofString "'a", Bytes.ofString "b'"].foldl push []) ∧
      ([Bytes.ofString "a.b"] : List Bytes) ≠ [Bytes.ofString "'a", Bytes.ofString "b'"] ∧
      text ([[]].foldl push []) = text ([].foldl push []) ∧ ([[]] : List Bytes) ≠ [] := by
  decide

end FormulaTypes.FieldPath
