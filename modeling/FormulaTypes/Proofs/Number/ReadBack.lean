import FormulaTypes.Proofs.Number.Shortest

/-!
# The text of a number reads back

`layout` writes figures with a point, zeros or an exponent among them. Whatever form it takes, the reader comes to the
same decimal (`readMagnitude_layout`): it collects the figures on both sides of the point (`readSignificand_pointed`)
and the exponent (`readExponent?_sizeText`). With `shortest_spec` every double but NaN is read from its own text, and
NaN is read as NaN (`read_text`).
-/

namespace FormulaTypes.Number

-- Powers are those of the core library, whatever else is imported.
attribute [local instance (2000)] instPowNat

/-! ## Figures -/

/-- The byte is a decimal figure. -/
def IsFigure (c : UInt8) : Prop := 48 ≤ c.toNat ∧ c.toNat ≤ 57

instance (c : UInt8) : Decidable (IsFigure c) := inferInstanceAs (Decidable (48 ≤ c.toNat ∧ c.toNat ≤ 57))

theorem isFigure_of_mem_zero : ∀ c ∈ ([48] : Bytes), IsFigure c := List.forall_mem_singleton.2 (by decide)

/-- The number that some figures stand for, after those that stand for `start`. -/
def figuresFrom (start : Nat) (ds : Bytes) : Nat := ds.foldl (fun n c => n * 10 + (c.toNat - 48)) start

/-- The number that some figures stand for. -/
def figuresValue (ds : Bytes) : Nat := figuresFrom 0 ds

theorem figuresFrom_eq (start : Nat) (ds : Bytes) :
    figuresFrom start ds = start * 10 ^ ds.length + figuresValue ds := by
  induction ds generalizing start with
  | nil => simp [figuresFrom, figuresValue]
  | cons c ds ih =>
    have hcons : ∀ n, figuresFrom n (c :: ds) = figuresFrom (n * 10 + (c.toNat - 48)) ds := fun _ => rfl
    rw [figuresValue, hcons, hcons, ih, ih (0 * 10 + _), List.length_cons, Nat.pow_succ]
    rw [Nat.zero_mul, Nat.zero_add, Nat.add_mul, Nat.mul_assoc, Nat.mul_comm 10, Nat.add_assoc]

theorem figuresValue_append (ds es : Bytes) :
    figuresValue (ds ++ es) = figuresValue ds * 10 ^ es.length + figuresValue es := by
  rw [← figuresFrom_eq, figuresValue, figuresValue, figuresFrom, List.foldl_append]
  rfl

theorem figuresValue_zeros (n : Nat) : figuresValue (List.replicate n 48) = 0 := by
  induction n with
  | zero => rfl
  | succ n ih =>
    rw [List.replicate_succ', figuresValue_append, ih]
    rfl

theorem isFigure_of_mem_decimalDigits {n : Nat} {c : UInt8} (h : c ∈ decimalDigits n) : IsFigure c := by
  obtain ⟨ch, hm, rfl⟩ := List.mem_map.1 h
  have hd := Nat.isDigit_of_mem_toDigits (by decide) (by decide) hm
  simp only [Char.isDigit, Bool.and_eq_true, decide_eq_true_eq, ge_iff_le, UInt32.le_iff_toNat_le] at hd
  have h₁ : 48 ≤ ch.toNat := hd.1
  have h₂ : ch.toNat ≤ 57 := hd.2
  simp only [IsFigure, Nat.toUInt8, UInt8.toNat_ofNat']
  omega

/-- The digits of a number stand for it. -/
theorem figuresValue_decimalDigits (n : Nat) : figuresValue (decimalDigits n) = n := by
  have hmap : ∀ (cs : List Char) (start : Nat), (∀ c ∈ cs, c.toNat < 256) →
      figuresFrom start (cs.map fun c => c.toNat.toUInt8) = Nat.ofDigitChars 10 cs start := by
    intro cs
    induction cs with
    | nil => intro start _; rfl
    | cons c cs ih =>
      intro start h
      have hc : c.toNat.toUInt8.toNat = c.toNat := by
        simp only [Nat.toUInt8, UInt8.toNat_ofNat']
        exact Nat.mod_eq_of_lt (h c List.mem_cons_self)
      rw [Nat.ofDigitChars_cons, ← ih _ fun x hx => h x (List.mem_cons_of_mem _ hx)]
      simp only [List.map_cons, figuresFrom, List.foldl_cons, hc, Nat.mul_comm start]
      rfl
  have hsmall : ∀ c ∈ Nat.toDigits 10 n, c.toNat < 256 := by
    intro c hc
    have hd := Nat.isDigit_of_mem_toDigits (by decide) (by decide) hc
    simp only [Char.isDigit, Bool.and_eq_true, decide_eq_true_eq, ge_iff_le, UInt32.le_iff_toNat_le] at hd
    have : c.toNat ≤ 57 := hd.2
    omega
  rw [figuresValue, decimalDigits, hmap _ 0 hsmall, Nat.ofDigitChars_ten_toDigits]

/-! ## The significand -/

theorem digit?_of_isFigure {c : UInt8} (h : IsFigure c) (hex : Bool) : digit? hex c = some (c.toNat - 48) := by
  unfold digit?
  exact if_pos h

/-- The significand after some more figures. -/
def Significand.pushAll (acc : Significand) (ds : Bytes) : Significand :=
  ds.foldl (fun acc c => acc.push 10 (c.toNat - 48)) acc

/-- Figures are taken one after another. -/
theorem readSignificand_figures {ds : Bytes} (h : ∀ c ∈ ds, IsFigure c) (acc : Significand) (rest : Bytes) :
    readSignificand false acc (ds ++ rest) = readSignificand false (acc.pushAll ds) rest := by
  induction ds generalizing acc with
  | nil => rfl
  | cons c ds ih =>
    have hc : IsFigure c := h c List.mem_cons_self
    have hne : ∀ x : UInt8, x.toNat < 48 ∨ 57 < x.toNat → c ≠ x := by
      rintro x hx rfl
      unfold IsFigure at hc
      omega
    rw [List.cons_append, readSignificand, if_neg (hne 95 (by decide)),
      if_neg (fun e => hne 46 (by decide) e.1), digit?_of_isFigure hc]
    exact ih (fun x hx => h x (List.mem_cons_of_mem _ hx)) _

theorem pushAll_append (acc : Significand) (ds es : Bytes) : acc.pushAll (ds ++ es) = (acc.pushAll ds).pushAll es :=
  List.foldl_append

/-- What some more figures do to a significand. -/
theorem pushAll_spec (acc : Significand) (ds : Bytes) :
    (acc.pushAll ds).value = figuresFrom acc.value ds ∧ (acc.pushAll ds).count = acc.count + ds.length ∧
      (acc.pushAll ds).point = acc.point ∧
      (acc.pushAll ds).places = acc.places + if acc.point then ds.length else 0 := by
  induction ds generalizing acc with
  | nil => simp [Significand.pushAll, figuresFrom]
  | cons c ds ih =>
    obtain ⟨hv, hc, hp, hq⟩ := ih (acc.push 10 (c.toNat - 48))
    have hcons : acc.pushAll (c :: ds) = (acc.push 10 (c.toNat - 48)).pushAll ds := rfl
    have hplaces : (acc.push 10 (c.toNat - 48)).places = acc.places + if acc.point then 1 else 0 := by
      simp only [Significand.push]
      split <;> rfl
    have hpoint : (acc.push 10 (c.toNat - 48)).point = acc.point := rfl
    have hcount : (acc.push 10 (c.toNat - 48)).count = acc.count + 1 := rfl
    rw [hcons, hv, hc, hp, hq, hplaces, hpoint, hcount, List.length_cons]
    refine ⟨rfl, by omega, rfl, ?_⟩
    split <;> omega

/-- The point plays no part in the number of figures. -/
theorem figures_pushAll_congr (acc bcc : Significand) (hv : acc.value = bcc.value) (hf : acc.figures = bcc.figures)
    (ds : Bytes) : (acc.pushAll ds).figures = (bcc.pushAll ds).figures := by
  induction ds generalizing acc bcc with
  | nil => exact hf
  | cons c ds ih =>
    have hv' : (acc.push 10 (c.toNat - 48)).value = (bcc.push 10 (c.toNat - 48)).value := by
      simp only [Significand.push, hv]
    have hf' : (acc.push 10 (c.toNat - 48)).figures = (bcc.push 10 (c.toNat - 48)).figures := by
      simp only [Significand.push, hv, hf]
    exact ih _ _ hv' hf'

theorem figures_pushAll_le (acc : Significand) (ds : Bytes) : (acc.pushAll ds).figures ≤ acc.figures + ds.length := by
  induction ds generalizing acc with
  | nil => exact Nat.le_refl _
  | cons c ds ih =>
    have hpush : (acc.push 10 (c.toNat - 48)).figures ≤ acc.figures + 1 := by
      simp only [Significand.push]
      split <;> omega
    have := ih (acc.push 10 (c.toNat - 48))
    rw [List.length_cons]
    exact Nat.le_trans this (by omega)

/-- Leading zeros are no figures of the number. -/
theorem figures_zeros_append_le (n : Nat) (ds : Bytes) :
    (Significand.empty.pushAll (List.replicate n 48 ++ ds)).figures ≤ ds.length := by
  have hzeros : (Significand.empty.pushAll (List.replicate n 48)).figures = 0 := by
    induction n with
    | zero => rfl
    | succ n ih =>
      have hv : (Significand.empty.pushAll (List.replicate n 48)).value = 0 :=
        (pushAll_spec .empty (List.replicate n 48)).1.trans (figuresValue_zeros n)
      rw [List.replicate_succ', pushAll_append]
      generalize Significand.empty.pushAll (List.replicate n 48) = acc at *
      simp [Significand.pushAll, Significand.push, hv]
  have := figures_pushAll_le (Significand.empty.pushAll (List.replicate n 48)) ds
  rw [pushAll_append]
  omega

/-- Where the reader of a significand stops. -/
theorem readSignificand_stop (acc : Significand) {rest : Bytes} (h : rest = [] ∨ ∃ r, rest = 101 :: r) :
    readSignificand false acc rest = (acc, rest) := by
  rcases h with rfl | ⟨r, rfl⟩
  · rfl
  · rw [readSignificand, if_neg (by decide), if_neg (fun e => absurd e.1 (by decide))]
    rfl

/-- A significand without a point. -/
theorem readSignificand_whole {ds rest : Bytes} (h : ∀ c ∈ ds, IsFigure c) (hr : rest = [] ∨ ∃ r, rest = 101 :: r) :
    ∃ sig, readSignificand false .empty (ds ++ rest) = (sig, rest) ∧ sig.value = figuresValue ds ∧
      sig.count = ds.length ∧ sig.figures = (Significand.empty.pushAll ds).figures ∧ sig.places = 0 := by
  obtain ⟨hv, hc, -, hp⟩ := pushAll_spec .empty ds
  refine ⟨_, ?_, hv, hc.trans (Nat.zero_add _), rfl, hp⟩
  rw [readSignificand_figures h, readSignificand_stop _ hr]

/-- A significand with a point. -/
theorem readSignificand_pointed {ds es rest : Bytes} (hd : ∀ c ∈ ds, IsFigure c) (he : ∀ c ∈ es, IsFigure c)
    (hr : rest = [] ∨ ∃ r, rest = 101 :: r) :
    ∃ sig, readSignificand false .empty (ds ++ 46 :: (es ++ rest)) = (sig, rest) ∧
      sig.value = figuresValue (ds ++ es) ∧ sig.count = ds.length + es.length ∧
      sig.figures = (Significand.empty.pushAll (ds ++ es)).figures ∧ sig.places = es.length := by
  obtain ⟨hv, hc, hp, hq⟩ := pushAll_spec .empty ds
  obtain ⟨hv', hc', -, hq'⟩ := pushAll_spec { Significand.empty.pushAll ds with point := true } es
  refine ⟨_, ?_, hv'.trans ?_, hc'.trans ?_, ?_, hq'.trans ?_⟩
  · rw [readSignificand_figures hd, readSignificand, if_neg (by decide), if_pos ⟨rfl, by rw [hp]; decide⟩,
      readSignificand_figures he, readSignificand_stop _ hr]
  · rw [figuresValue, figuresFrom, figuresFrom, List.foldl_append]
    exact congrArg (fun n => es.foldl _ n) hv
  · exact congrArg (· + es.length) (hc.trans (Nat.zero_add _))
  · rw [pushAll_append]
    exact figures_pushAll_congr { Significand.empty.pushAll ds with point := true } (.pushAll .empty ds) rfl rfl es
  · rw [if_pos rfl]
    exact (congrArg (· + es.length) hq).trans (Nat.zero_add _)

/-! ## The exponent -/

/-- An exponent below the limit is taken as it stands. -/
theorem readExponentDigits_figures {ds : Bytes} (h : ∀ c ∈ ds, IsFigure c) (acc : Nat)
    (hsize : figuresFrom acc ds < 100000) : readExponentDigits acc ds = (figuresFrom acc ds, []) := by
  induction ds generalizing acc with
  | nil => rfl
  | cons c ds ih =>
    have hc : IsFigure c := h c List.mem_cons_self
    have hne : c ≠ 95 := by
      rintro rfl
      exact absurd hc (by decide)
    have hcons : figuresFrom acc (c :: ds) = figuresFrom (acc * 10 + (c.toNat - 48)) ds := rfl
    have hacc : acc < 10000 := by
      rw [hcons, figuresFrom_eq] at hsize
      have hpos : 0 < 10 ^ ds.length := Nat.pow_pos (by decide)
      have := Nat.le_mul_of_pos_right (acc * 10 + (c.toNat - 48)) hpos
      omega
    rw [readExponentDigits, if_neg hne, digit?_of_isFigure hc]
    simp only [if_pos hacc]
    exact ih (fun x hx => h x (List.mem_cons_of_mem _ hx)) _ hsize

/-- The figures of an exponent as they are written: two at least. -/
def sizeText (e : Int) : Bytes :=
  if (decimalDigits e.natAbs).length < 2 then 48 :: decimalDigits e.natAbs else decimalDigits e.natAbs

theorem isFigure_of_mem_sizeText {e : Int} {c : UInt8} (h : c ∈ sizeText e) : IsFigure c := by
  unfold sizeText at h
  split at h
  · rcases List.mem_cons.1 h with rfl | h
    · decide
    · exact isFigure_of_mem_decimalDigits h
  · exact isFigure_of_mem_decimalDigits h

theorem figuresValue_sizeText (e : Int) : figuresValue (sizeText e) = e.natAbs := by
  unfold sizeText
  split
  · exact figuresValue_decimalDigits e.natAbs
  · exact figuresValue_decimalDigits e.natAbs

/-- An exponent that was written is read. -/
theorem readExponent?_sizeText {e : Int} (he : e.natAbs < 100000) :
    readExponent? ((if e < 0 then 45 else 43) :: sizeText e) = some (e, []) := by
  have hsplit : splitSign ((if e < 0 then 45 else 43) :: sizeText e) = (decide (e < 0), sizeText e) := by
    split
    · next h => simp [splitSign, h]
    · next h => simp [splitSign, h]
  have hread : readExponentDigits 0 (sizeText e) = (e.natAbs, []) := by
    have hvalue : figuresFrom 0 (sizeText e) = e.natAbs := figuresValue_sizeText e
    rw [readExponentDigits_figures (fun c hc => isFigure_of_mem_sizeText hc) 0 (by omega), hvalue]
  have hne : sizeText e ≠ [] := by
    have := length_decimalDigits_pos e.natAbs
    unfold sizeText
    split
    · exact List.cons_ne_nil _ _
    · exact List.ne_nil_of_length_pos this
  unfold readExponent?
  rw [hsplit]
  dsimp only
  split
  · next h => exact absurd h hne
  · next c ds h =>
    have hc : IsFigure c := isFigure_of_mem_sizeText (h ▸ List.mem_cons_self)
    rw [digit?_of_isFigure hc, hread]
    simp only [Option.isSome_some, if_true, decide_eq_true_eq, Option.some.injEq, Prod.mk.injEq, and_true]
    split <;> omega

/-! ## The bytes of a number -/

/-- The byte stands in texts of finite numbers: a figure, the point, the mark of an exponent or a sign. -/
def IsNumberByte (c : UInt8) : Prop := IsFigure c ∨ c = 46 ∨ c = 101 ∨ c = 43 ∨ c = 45

theorem lower_of_isFigure {c : UInt8} (h : IsFigure c) : lower c = c := by
  unfold IsFigure at h
  exact if_neg (by omega)

theorem IsFigure.ne {c x : UInt8} (h : IsFigure c) (hx : x.toNat < 48 ∨ 57 < x.toNat) : c ≠ x := by
  rintro rfl
  unfold IsFigure at h
  omega

theorem lower_ne_of_isNumberByte {c : UInt8} (h : IsNumberByte c) : lower c ≠ 120 := by
  rcases h with h | rfl | rfl | rfl | rfl
  · rw [lower_of_isFigure h]
    exact h.ne (by decide)
  all_goals decide

theorem ne_underscore_of_isNumberByte {c : UInt8} (h : IsNumberByte c) : c ≠ 95 := by
  rcases h with h | rfl | rfl | rfl | rfl
  · exact h.ne (by decide)
  all_goals decide

/-- The texts of finite numbers start with a figure, after a sign if there is one. -/
def IsUnsigned (body : Bytes) : Prop := (∀ c ∈ body, IsNumberByte c) ∧ ∃ c rest, body = c :: rest ∧ IsFigure c

/-- A body with its sign. -/
def signed (negative : Bool) (body : Bytes) : Bytes := if negative then 45 :: body else body

theorem splitSign_signed {body : Bytes} (h : IsUnsigned body) (negative : Bool) :
    splitSign (signed negative body) = (negative, body) := by
  obtain ⟨-, c, rest, rfl, hc⟩ := h
  cases negative with
  | true => rfl
  | false =>
    have h₁ : c ≠ 43 := hc.ne (by decide)
    have h₂ : c ≠ 45 := hc.ne (by decide)
    simp only [signed, Bool.false_eq_true, if_false]
    unfold splitSign
    split <;> simp_all

theorem splitBase_unsigned {body : Bytes} (h : IsUnsigned body) : splitBase body = (false, body) := by
  unfold splitBase
  split
  · next x c rest =>
    exact if_neg (lower_ne_of_isNumberByte (h.1 x (by simp)))
  · rfl

theorem readNamed?_signed {body : Bytes} (h : IsUnsigned body) (negative : Bool) :
    readNamed? (signed negative body) = none := by
  have hsplit := splitSign_signed h negative
  obtain ⟨-, c, rest, rfl, hc⟩ := h
  have h₁ : c ≠ 105 := hc.ne (by decide)
  have h₂ : c ≠ 110 := hc.ne (by decide)
  have hminus : lower 45 ≠ 110 := by decide
  -- what counts of the names is that they start with neither a figure nor a sign
  have hinf : Bytes.ofString "inf" = 105 :: Bytes.ofString "nf" := by decide +kernel
  have hinfinity : Bytes.ofString "infinity" = 105 :: Bytes.ofString "nfinity" := by decide +kernel
  have hnan : Bytes.ofString "nan" = 110 :: Bytes.ofString "an" := by decide +kernel
  unfold readNamed?
  rw [hsplit, hinf, hinfinity, hnan]
  cases negative <;> simp [signed, lower_of_isFigure hc, h₁, h₂, hminus]

theorem not_mem_signed {body : Bytes} (h : IsUnsigned body) (negative : Bool) : 95 ∉ signed negative body := by
  intro hm
  cases negative with
  | true =>
    rcases List.mem_cons.1 hm with hm | hm
    · exact absurd hm (by decide)
    · exact ne_underscore_of_isNumberByte (h.1 _ hm) rfl
  | false => exact ne_underscore_of_isNumberByte (h.1 _ hm) rfl

/-- What stands after the significand: nothing, or the exponent. -/
def IsExponent (rest : Bytes) (x : Int) : Prop :=
  (rest = [] ∧ x = 0) ∨ ∃ r, rest = 101 :: r ∧ readExponent? r = some (x, [])

theorem IsExponent.stop {rest : Bytes} {x : Int} (h : IsExponent rest x) : rest = [] ∨ ∃ r, rest = 101 :: r :=
  h.imp And.left fun ⟨r, hr, _⟩ => ⟨r, hr⟩

/-- What the reader makes of a finite number, from its significand and its exponent. -/
theorem readMagnitude_signed (b : Binary) {body rest : Bytes} {sig : Significand} {x : Int} (h : IsUnsigned body)
    (hsig : readSignificand false .empty body = (sig, rest)) (hcount : 0 < sig.count)
    (hfigures : sig.figures ≤ Numeral.glance)
    (hexp : IsExponent rest x) (negative : Bool) :
    readMagnitude b (signed negative body) =
      if Decimal.round b ⟨sig.value, x - sig.places⟩ < b.infinity then
        .ok (negative, Decimal.round b ⟨sig.value, x - sig.places⟩)
      else .error .outOfRange := by
  have hread : readWritten? (signed negative body) = some ⟨negative, false, sig, x⟩ := by
    have hnone : ¬ (sig.count = 0 ∨
        ((signed negative body).contains 95 ∧ ¬ underscoresPlaced (signed negative body))) := by
      rintro (h₀ | ⟨h₁, -⟩)
      · omega
      · exact not_mem_signed h negative (List.contains_iff_mem.1 h₁)
    unfold readWritten?
    rw [splitSign_signed h]
    dsimp only
    rw [splitBase_unsigned h]
    dsimp only
    rw [hsig]
    dsimp only
    rw [if_neg hnone]
    rcases hexp with ⟨rfl, rfl⟩ | ⟨r, rfl, hr⟩
    · rfl
    · simp only [Bool.false_eq_true, if_false]
      rw [if_pos (by decide), hr]
  have hmag : Written.magnitude b ⟨negative, false, sig, x⟩ = Decimal.round b ⟨sig.value, x - sig.places⟩ := by
    have hle : (Written.numeral ⟨negative, false, sig, x⟩).figures ≤ Numeral.glance := hfigures
    have hexponent : (sig.figures - sig.places + x - sig.figures : Int) = x - sig.places := by omega
    rw [Written.magnitude, if_neg Bool.false_ne_true, Numeral.magnitude_of_figures_le b hle]
    simp only [Written.numeral, hexponent]
  unfold readMagnitude
  rw [readNamed?_signed h, hread]
  simp only [hmag]

/-! ## Layouts -/

variable {ds : Bytes} {e : Int}

theorem isUnsigned_append {w rest : Bytes} (hw : ∀ c ∈ w, IsFigure c) (hne : w ≠ [])
    (hr : ∀ c ∈ rest, IsNumberByte c) : IsUnsigned (w ++ rest) := by
  obtain ⟨c, w, rfl⟩ := List.exists_cons_of_ne_nil hne
  refine ⟨fun x hx => ?_, c, w ++ rest, rfl, hw c List.mem_cons_self⟩
  rcases List.mem_append.1 hx with hx | hx
  · exact .inl (hw x hx)
  · exact hr x hx

/-- How a layout is read: a significand of the given figures, shifted by zeros, and the exponent that goes with it. -/
structure ReadsAs (body : Bytes) (ds : Bytes) (e : Int) : Prop where
  unsigned : IsUnsigned body
  parts : ∃ (sig : Significand) (rest : Bytes) (x : Int) (zeros : Nat),
    readSignificand false .empty body = (sig, rest) ∧ IsExponent rest x ∧ 0 < sig.count ∧
      sig.figures ≤ max ds.length 6 ∧ sig.value = figuresValue ds * 10 ^ zeros ∧
      x - sig.places + zeros = e + 1 - ds.length

/-- Figures with a point among them, perhaps after zeros, and the exponent. -/
theorem readsAs_pointed {w f rest : Bytes} {x : Int} {n : Nat} (hw : ∀ c ∈ w, IsFigure c) (hne : w ≠ [])
    (hf : ∀ c ∈ f, IsFigure c) (hr : ∀ c ∈ rest, IsNumberByte c)
    (hexp : IsExponent rest x)
    (hds : w ++ f = List.replicate n 48 ++ ds) (hx : x - f.length = e + 1 - ds.length) :
    ReadsAs (w ++ 46 :: (f ++ rest)) ds e := by
  obtain ⟨sig, hread, hv, hc, hfig, hp⟩ := readSignificand_pointed hw hf hexp.stop
  refine ⟨isUnsigned_append hw hne fun c hc => ?_, sig, rest, x, 0, hread, hexp, ?_, ?_, ?_, by omega⟩
  · rcases List.mem_cons.1 hc with rfl | hc
    · exact .inr (.inl rfl)
    · rcases List.mem_append.1 hc with hc | hc
      · exact .inl (hf c hc)
      · exact hr c hc
  · have := List.length_pos_iff.2 hne
    omega
  · have := figures_zeros_append_le n ds
    rw [hfig, hds]
    omega
  · rw [hv, hds, figuresValue_append, figuresValue_zeros, Nat.zero_mul, Nat.zero_add, Nat.pow_zero, Nat.mul_one]

/-- Figures without a point, perhaps before zeros, and the exponent. -/
theorem readsAs_whole {rest : Bytes} {x : Int} {n : Nat} (hds : ∀ c ∈ ds, IsFigure c) (hne : ds ≠ [])
    (hr : ∀ c ∈ rest, IsNumberByte c)
    (hexp : IsExponent rest x)
    (hn : n = 0 ∨ ds.length + n ≤ 6) (hx : x + n = e + 1 - ds.length) :
    ReadsAs (ds ++ List.replicate n 48 ++ rest) ds e := by
  have hw : ∀ c ∈ ds ++ List.replicate n 48, IsFigure c := by
    intro c hc
    rcases List.mem_append.1 hc with hc | hc
    · exact hds c hc
    · rw [List.eq_of_mem_replicate hc]
      decide
  obtain ⟨sig, hread, hv, hc, hfig, hp⟩ := readSignificand_whole hw hexp.stop
  have hlen : (ds ++ List.replicate n 48).length = ds.length + n := by simp
  refine ⟨isUnsigned_append hw (by simp [hne]) hr, sig, rest, x, n, hread, hexp, ?_, ?_, ?_, by omega⟩
  · have := List.length_pos_iff.2 hne
    omega
  · have := figures_zeros_append_le 0 (ds ++ List.replicate n 48)
    rw [List.replicate_zero, List.nil_append] at this
    omega
  · rw [hv, figuresValue_append, figuresValue_zeros, List.length_replicate, Nat.add_zero]

/-- Every layout is read as the figures it was made of. -/
theorem readsAs_layout (hds : ∀ c ∈ ds, IsFigure c) (hne : ds ≠ []) (he : e.natAbs < 100000) :
    ReadsAs (layout ds e) ds e := by
  have htake : ∀ n, ∀ c ∈ ds.take n, IsFigure c := fun n c hc => hds c (List.mem_of_mem_take hc)
  have hdrop : ∀ n, ∀ c ∈ ds.drop n, IsFigure c := fun n c hc => hds c (List.mem_of_mem_drop hc)
  have hpos := List.length_pos_iff.2 hne
  unfold layout
  split
  · -- with an exponent
    have hr : ∀ c ∈ 101 :: (if e < 0 then 45 else 43) :: sizeText e, IsNumberByte c := by
      intro c hc
      rcases List.mem_cons.1 hc with rfl | hc
      · exact .inr (.inr (.inl rfl))
      · rcases List.mem_cons.1 hc with rfl | hc
        · split
          · exact .inr (.inr (.inr (.inr rfl)))
          · exact .inr (.inr (.inr (.inl rfl)))
        · exact .inl (isFigure_of_mem_sizeText hc)
    have hexp : IsExponent (101 :: (if e < 0 then 45 else 43) :: sizeText e) e :=
      .inr ⟨_, rfl, readExponent?_sizeText he⟩
    dsimp only
    split
    · next hlen =>
      have := readsAs_whole (e := e) (n := 0) hds hne hr hexp (.inl rfl) (by omega)
      simpa [sizeText] using this
    · next hlen =>
      have := readsAs_pointed (e := e) (n := 0) (htake 1) (by simpa using hne) (hdrop 1) hr hexp
        (List.take_append_drop 1 ds) (by rw [List.length_drop]; omega)
      simpa [sizeText] using this
  · next hplain =>
    have hnone : ∀ c ∈ ([] : Bytes), IsNumberByte c := by simp
    have hexp : IsExponent [] 0 := .inl ⟨rfl, rfl⟩
    split
    · -- zeros after the point
      have hzeros : ∀ c ∈ List.replicate (e.natAbs - 1) 48 ++ ds, IsFigure c := by
        intro c hc
        rcases List.mem_append.1 hc with hc | hc
        · rw [List.eq_of_mem_replicate hc]
          decide
        · exact hds c hc
      have := readsAs_pointed (w := [48]) (n := e.natAbs) (e := e) isFigure_of_mem_zero (by decide) hzeros hnone hexp
        (by
          rw [← List.append_assoc, List.singleton_append, ← List.replicate_succ]
          congr 2
          omega)
        (by simp; omega)
      simpa using this
    · dsimp only
      split
      · have := readsAs_whole (n := e.toNat + 1 - ds.length) (e := e) hds hne hnone hexp (.inr (by omega)) (by omega)
        simpa using this
      · have := readsAs_pointed (n := 0) (e := e) (htake (e.toNat + 1)) (by simpa using hne) (hdrop _) hnone hexp
          (List.take_append_drop (e.toNat + 1) ds) (by rw [List.length_drop]; omega)
        simpa using this

/-- The reader comes to the decimal that a layout was made of. -/
theorem readMagnitude_layout (b : Binary) (hds : ∀ c ∈ ds, IsFigure c) (hne : ds ≠ []) (he : e.natAbs < 100000)
    (hlen : ds.length ≤ Numeral.glance) (negative : Bool) :
    readMagnitude b (signed negative (layout ds e)) =
      if Decimal.round b ⟨figuresValue ds, e + 1 - ds.length⟩ < b.infinity then
        .ok (negative, Decimal.round b ⟨figuresValue ds, e + 1 - ds.length⟩)
      else .error .outOfRange := by
  obtain ⟨hu, sig, rest, x, zeros, hread, hexp, hcount, hfig, hv, hx⟩ := readsAs_layout hds hne he
  have hround : Decimal.round b ⟨sig.value, x - sig.places⟩ = Decimal.round b ⟨figuresValue ds, e + 1 - ds.length⟩ := by
    rw [hv, Decimal.round_shift, hx]
  rw [readMagnitude_signed b hu hread hcount (by unfold Numeral.glance at *; omega) hexp, hround]

/-! ## Doubles -/

/-- Digits are those that are kept and zeros. -/
theorem trimZeros_spec (ds : Bytes) :
    ds = (trimZeros ds).1 ++ List.replicate (trimZeros ds).2 48 := by
  have hsplit : ds = (ds.reverse.dropWhile (· = 48)).reverse ++ (ds.reverse.takeWhile (· = 48)).reverse := by
    rw [← List.reverse_append, List.takeWhile_append_dropWhile, List.reverse_reverse]
  have hzeros : (ds.reverse.takeWhile (· = 48)).reverse =
      List.replicate (ds.reverse.takeWhile (· = 48)).length 48 := by
    rw [List.eq_replicate_iff]
    refine ⟨List.length_reverse, fun c hc => ?_⟩
    exact of_decide_eq_true (List.all_eq_true.1 List.all_takeWhile c (List.mem_reverse.1 hc))
  have hlen : ds.length - (ds.reverse.dropWhile (· = 48)).reverse.length = (ds.reverse.takeWhile (· = 48)).length := by
    have := congrArg List.length hsplit
    simp only [List.length_append, List.length_reverse] at this ⊢
    omega
  unfold trimZeros
  dsimp only
  rw [hlen, ← hzeros]
  exact hsplit

theorem magnitudeText_eq (word : Nat) :
    magnitudeText word = layout (trimZeros (decimalDigits (shortest word).digits)).1
      ((shortest word).exponent + (trimZeros (decimalDigits (shortest word).digits)).2 +
        ((trimZeros (decimalDigits (shortest word).digits)).1.length - 1)) := rfl

/-- The text of a positive finite magnitude is a layout of figures that round to it. -/
theorem exists_layout {word : Nat} (hw : 0 < word) (hf : word < Binary.double.infinity) :
    ∃ ds e, magnitudeText word = layout ds e ∧ (∀ c ∈ ds, IsFigure c) ∧ ds ≠ [] ∧ e.natAbs < 100000 ∧
      ds.length ≤ Numeral.glance ∧ Decimal.round .double ⟨figuresValue ds, e + 1 - ds.length⟩ = word := by
  obtain ⟨hback, hdigits, hexponent⟩ := shortest_spec hw hf
  rw [magnitudeText_eq]
  generalize shortest word = d at *
  have htrim := trimZeros_spec (decimalDigits d.digits)
  have hvalue := figuresValue_decimalDigits d.digits
  have hlength : (decimalDigits d.digits).length ≤ 18 :=
    (length_decimalDigits_le_iff (by decide)).2 (Nat.lt_of_le_of_lt hdigits (by decide))
  have hfigures : ∀ c ∈ (trimZeros (decimalDigits d.digits)).1, IsFigure c := by
    intro c hc
    refine isFigure_of_mem_decimalDigits (n := d.digits) ?_
    rw [htrim]
    exact List.mem_append_left _ hc
  generalize (trimZeros (decimalDigits d.digits)).1 = ds at *
  generalize (trimZeros (decimalDigits d.digits)).2 = zeros at *
  rw [htrim, List.length_append, List.length_replicate] at hlength
  rw [htrim, figuresValue_append, figuresValue_zeros, List.length_replicate, Nat.add_zero] at hvalue
  have hround : Decimal.round .double ⟨figuresValue ds, d.exponent + zeros⟩ = word := by
    rw [← Decimal.round_shift, hvalue]
    exact hback
  have hne : ds ≠ [] := by
    rintro rfl
    rw [show figuresValue [] = 0 from rfl, Decimal.round_zero] at hround
    omega
  have hpos := List.length_pos_iff.2 hne
  refine ⟨ds, _, rfl, hfigures, hne, ?_, ?_, ?_⟩
  · omega
  · unfold Numeral.glance
    omega
  · have he : d.exponent + zeros + ((ds.length : Int) - 1) + 1 - ds.length = d.exponent + zeros := by omega
    rw [he]
    exact hround

/-- The text of a positive finite magnitude reads back. -/
theorem readMagnitude_magnitudeText {word : Nat} (hw : 0 < word) (hf : word < Binary.double.infinity)
    (negative : Bool) : readMagnitude .double (signed negative (magnitudeText word)) = .ok (negative, word) := by
  obtain ⟨ds, e, htext, hds, hne, he, hlen, hround⟩ := exists_layout hw hf
  rw [htext, readMagnitude_layout .double hds hne he hlen, hround, if_pos hf]

theorem isUnsigned_magnitudeText {word : Nat} (hw : 0 < word) (hf : word < Binary.double.infinity) :
    IsUnsigned (magnitudeText word) := by
  obtain ⟨ds, e, htext, hds, hne, he, -, -⟩ := exists_layout hw hf
  rw [htext]
  exact (readsAs_layout hds hne he).unsigned

namespace Double

/-- A double is its sign and its magnitude. -/
theorem ofMagnitude_eq (d : Double) : ofMagnitude d.isNegative d.magnitude = d := by
  obtain ⟨bits⟩ := d
  have hlt : bits.toNat < 2 ^ 64 := bits.toNat_lt
  have hsum : bits.toNat % 0x8000000000000000 + (if decide (0x8000000000000000 ≤ bits.toNat) then
      0x8000000000000000 else 0) = bits.toNat := by
    simp only [decide_eq_true_eq]
    split <;> omega
  exact congrArg Double.mk ((congrArg Nat.toUInt64 hsum).trans UInt64.ofNat_toNat)

theorem text_of_isNaN {d : Double} (h : d.isNaN = true) : d.text = [78, 97, 78] := by
  have hword : Bytes.ofString "NaN" = [78, 97, 78] := by decide +kernel
  rw [text, if_pos h, hword]

theorem text_of_isInfinite {d : Double} (h : d.isInfinite = true) :
    d.text = (if d.isNegative then 45 else 43) :: [73, 110, 102] := by
  have hneg : Bytes.ofString "-Inf" = [45, 73, 110, 102] := by decide +kernel
  have hpos : Bytes.ofString "+Inf" = [43, 73, 110, 102] := by decide +kernel
  have hnan : ¬ d.isNaN = true := by
    simp only [isInfinite, isNaN, decide_eq_true_eq] at h ⊢
    omega
  rw [text, if_neg hnan, if_pos h]
  cases d.isNegative with
  | false => exact hpos
  | true => exact hneg

/-- The text of a finite double is a body after its sign, and the body reads as the magnitude. -/
theorem exists_body {d : Double} (h : d.magnitude < Binary.double.infinity) :
    ∃ body, d.text = signed d.isNegative body ∧ IsUnsigned body ∧
      readMagnitude .double (signed d.isNegative body) = .ok (d.isNegative, d.magnitude) := by
  have hnan : ¬ d.isNaN = true := by
    simp only [isNaN, decide_eq_true_eq]
    omega
  have hinf : ¬ d.isInfinite = true := by
    simp only [isInfinite, decide_eq_true_eq]
    omega
  refine ⟨if d.isZero then [48] else magnitudeText d.magnitude, ?_, ?_⟩
  · rw [text, if_neg hnan, if_neg hinf, signed]
  · by_cases hz : d.isZero = true
    · rw [if_pos hz]
      have hzero : d.magnitude = 0 := of_decide_eq_true hz
      refine ⟨isUnsigned_append isFigure_of_mem_zero (by decide) (by simp), ?_⟩
      have hread := readMagnitude_layout .double (e := 0) isFigure_of_mem_zero (by decide) (by decide)
        (by decide) d.isNegative
      rw [show figuresValue [48] = 0 from rfl, Decimal.round_zero, if_pos (by decide)] at hread
      rw [hzero]
      exact hread
    · rw [if_neg hz]
      have hpos : 0 < d.magnitude := Nat.pos_of_ne_zero fun hzero => hz (decide_eq_true hzero)
      exact ⟨isUnsigned_magnitudeText hpos h, readMagnitude_magnitudeText hpos h _⟩

/-- The text of a double that is a number reads back as that double. -/
theorem read_text {d : Double} (h : d.isNaN = false) : read d.text = .ok d := by
  have hmagnitude : readMagnitude .double d.text = .ok (d.isNegative, d.magnitude) := by
    by_cases hinf : d.isInfinite = true
    · rw [text_of_isInfinite hinf, show d.magnitude = Binary.double.infinity from of_decide_eq_true hinf]
      cases d.isNegative <;> rfl
    · simp only [isNaN, isInfinite, decide_eq_false_iff_not, decide_eq_true_eq] at h hinf
      obtain ⟨body, htext, -, hread⟩ := exists_body (show d.magnitude < Binary.double.infinity by omega)
      rw [htext, hread]
  rw [read, hmagnitude]
  exact congrArg Except.ok (ofMagnitude_eq d)

/-- The text of a double that is no number reads back as the one that stands for all. -/
theorem read_text_of_isNaN {d : Double} (h : d.isNaN = true) : read d.text = .ok nan := by
  rw [text_of_isNaN h]
  rfl

/-- The text of a double reads back as an equal one. -/
theorem exists_read_text (d : Double) : ∃ e, read d.text = .ok e ∧ e.same d = true ∧ e.text = d.text := by
  cases h : d.isNaN with
  | true =>
    have hnan : nan.isNaN = true := by decide
    refine ⟨nan, read_text_of_isNaN h, ?_, ?_⟩
    · rw [same, canonical, canonical, if_pos hnan, if_pos h]
      exact decide_eq_true rfl
    · rw [text_of_isNaN h, text_of_isNaN hnan]
  | false => exact ⟨d, read_text h, same_self d, rfl⟩

end Double

end FormulaTypes.Number
