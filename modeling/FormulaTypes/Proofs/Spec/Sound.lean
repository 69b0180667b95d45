import FormulaTypes.Proofs.Run
import FormulaTypes.Proofs.Ty.Edits
import FormulaTypes.Spec.Parser

/-!
# What is read is sound

Whatever a reader reads has a property (`Reader.Yields`) if the readers of its parts see to it. So every type that is
read on the way to a type is sound (`yields_readType`), and so is the type of a text (`sound_of_parse`).
-/

namespace FormulaTypes.Spec

/-- All that the reader reads has the property. -/
def Reader.Yields {α : Type} (item : Reader α) (P : α → Prop) : Prop :=
  ∀ ls a rest, item ls = .ok (a, rest) → P a

theorem failAt_ne_ok {α : Type} {ls : List Lexeme} {cause : Symbol → Cause} {a : α} : failAt ls cause ≠ .ok a := by
  rintro ⟨⟩

section Lists

variable {α : Type} {item : Reader α} {P : α → Prop}

theorem yields_readEntries (h : item.Yields P) (fuel : Nat) :
    Reader.Yields (readEntries item fuel) fun entries => ∀ e ∈ entries, P e.2 := by
  induction fuel with
  | zero =>
    intro ls entries rest hread
    exact absurd hread failAt_ne_ok
  | succ fuel ih =>
    intro ls entries rest hread
    rw [readEntries] at hread
    obtain ⟨⟨name, ls₁⟩, -, hread⟩ := bind_eq_ok_iff.1 hread
    obtain ⟨ls₂, -, hread⟩ := bind_eq_ok_iff.1 hread
    obtain ⟨⟨value, ls₃⟩, hitem, hread⟩ := bind_eq_ok_iff.1 hread
    have hvalue : P value := h ls₂ value ls₃ hitem
    dsimp only at hread
    split at hread
    · obtain ⟨ls₄, -, hread⟩ := bind_eq_ok_iff.1 hread
      obtain ⟨⟨more, ls₅⟩, hmore, hread⟩ := bind_eq_ok_iff.1 hread
      cases hread
      exact List.forall_mem_cons.2 ⟨hvalue, ih ls₄ more _ hmore⟩
    · obtain ⟨ls₄, -, hread⟩ := bind_eq_ok_iff.1 hread
      cases hread
      exact List.forall_mem_singleton.2 hvalue

theorem yields_readList (h : item.Yields P) : Reader.Yields (readList item) fun entries => ∀ e ∈ entries, P e.2 := by
  intro ls entries rest hread
  rw [readList] at hread
  obtain ⟨ls₁, -, hread⟩ := bind_eq_ok_iff.1 hread
  split at hread
  · obtain ⟨ls₂, -, hread⟩ := bind_eq_ok_iff.1 hread
    cases hread
    exact List.forall_mem_nil _
  · exact yields_readEntries h _ ls₁ entries rest hread

end Lists

section Types

variable {item : Reader Ty}

theorem yields_readFields (h : item.Yields Ty.Sound) (shape : Shape) : (readFields item shape).Yields Ty.Sound := by
  intro ls t rest hread
  rw [readFields] at hread
  obtain ⟨⟨entries, ls₁⟩, hentries, hread⟩ := bind_eq_ok_iff.1 hread
  cases hread
  exact Ty.sound_aggregate (NameMap.all_nil.insertAll (yields_readList h ls entries rest hentries))

/-- The literals that are read are of a plain kind. -/
theorem yields_readEnum : readEnum.Yields Ty.Sound := by
  intro ls t rest hread
  rw [readEnum] at hread
  obtain ⟨⟨text, ls₁⟩, -, hread⟩ := bind_eq_ok_iff.1 hread
  dsimp only at hread
  split at hread
  · next superkind hkind =>
    obtain ⟨⟨entries, ls₂⟩, -, hread⟩ := bind_eq_ok_iff.1 hread
    cases hread
    obtain ⟨-, hplain⟩ := Option.filter_eq_some_iff.1 hkind
    exact Ty.sound_enum hplain
  · cases hread

theorem yields_readLettered (h : item.Yields Ty.Sound) (text : Bytes) : (readLettered item text).Yields Ty.Sound := by
  intro ls t rest hread
  unfold readLettered at hread
  split at hread <;> try exact absurd hread failAt_ne_ok
  obtain ⟨ls₁, -, hread⟩ := bind_eq_ok_iff.1 hread
  split at hread
  · exact yields_readFields h .file ls₁ t rest hread
  · exact yields_readFields h .largeImage ls₁ t rest hread
  · split at hread
    · next form hform =>
      cases hread
      exact Ty.sound_ofKind (by rw [Ty.ofKind, hform])
    · exact absurd hread failAt_ne_ok

theorem yields_readType (fuel : Nat) : (readType fuel).Yields Ty.Sound := by
  induction fuel with
  | zero =>
    intro ls t rest hread
    exact absurd hread failAt_ne_ok
  | succ fuel ih =>
    intro ls t rest hread
    rw [readType] at hread
    split at hread
    · obtain ⟨ls₁, -, hread⟩ := bind_eq_ok_iff.1 hread
      exact yields_readFields ih .record ls₁ t rest hread
    · obtain ⟨ls₁, -, hread⟩ := bind_eq_ok_iff.1 hread
      exact yields_readFields ih .table ls₁ t rest hread
    · obtain ⟨ls₁, -, hread⟩ := bind_eq_ok_iff.1 hread
      exact yields_readEnum ls₁ t rest hread
    · exact yields_readLettered ih _ ls t rest hread
    · exact absurd hread failAt_ne_ok

end Types

/-- The type of a text is sound. -/
theorem sound_of_parse {s : Bytes} {t : Ty} (h : parse s = .ok t) : t.Sound := by
  have hread : readAll (lexemes s) = .ok t := by
    rw [parse] at h
    split at h
    · next hread => rw [hread, Except.ok.inj h]
    · cases h
  rw [readAll] at hread
  split at hread
  · cases hread
  obtain ⟨⟨u, rest⟩, htype, hread⟩ := bind_eq_ok_iff.1 hread
  dsimp only at hread
  split at hread
  · cases hread
    exact yields_readType _ _ t rest htype
  · exact absurd hread failAt_ne_ok

end FormulaTypes.Spec
