import FormulaTypes.Proofs.Checker.Equality
import FormulaTypes.Proofs.Checker.Expansion

/-!
# Checks end

A check meets no fault as long as it stays among types of classes that have none (`Walks.gives_check`). Such are sound
sources and destinations in which every lazy type has a provider, if the directory answers (`ends_check`): it knows an
entity or it does not, and every lazy type in what it knows has a provider. Then a source fits or is refused
(`fits_or_refuses`).

Operations that check on their way are stated over a class of sound types that is covered (`Checker.Covers`).
-/

namespace FormulaTypes

/-- Every lazy type in the type has a provider. -/
def Ty.Provided (t : Ty) : Prop := t.Everywhere fun u => u.isLazy = true → u.provider?.isSome = true

theorem Ty.Sound.provided {t : Ty} (h : t.Sound) : t.Provided := by
  refine Everywhere.imp h ?_
  rintro u ⟨-, hvalid⟩ hlazy
  obtain ⟨p, hp⟩ := exists_provider hvalid hlazy
  rw [hp]
  rfl

/-- Looking up an entity ends. -/
def Checker.LooksUp (c : Checker) : Prop := ∀ look token, c.entities = some look → ∃ found, look token = .ok found

/-- Looking up an entity ends, and every lazy type in what it gives has a provider. -/
def Checker.Answers (c : Checker) : Prop :=
  ∀ look token, c.entities = some look → ∃ found, look token = .ok found ∧
    ∀ entity, found = some entity → ∀ e ∈ entity.fields, e.2.Provided

theorem Checker.Answers.looksUp {c : Checker} (h : c.Answers) : c.LooksUp := by
  intro look token hlook
  obtain ⟨found, hfound, -⟩ := h look token hlook
  exact ⟨found, hfound⟩

/-- A directory that has the same entity under every token answers. -/
theorem Checker.answers_of_same {c : Checker} {entity : Entity} (hc : c.entities = some fun _ => .ok (some entity))
    (h : ∀ e ∈ entity.fields, e.2.Provided) : c.Answers := by
  intro look token hlook
  rw [hc] at hlook
  cases hlook
  refine ⟨_, rfl, ?_⟩
  rintro found ⟨⟩
  exact h

theorem Checker.Answers.exactly {c : Checker} (h : c.Answers) : c.exactly.Answers := h

/-- Plain kinds have sound types. -/
theorem Ty.exists_ofKind {k : Kind} (h : k.isPrimitive = true) : ∃ base, ofKind k = .ok base ∧ base.Sound := by
  cases k <;> first | exact ⟨_, rfl, by decide +kernel⟩ | cases h

namespace Checker

variable {c : Checker} {dst src : Ty}

/-- The types of a mismatch, if there is one, are of two classes. -/
def Between (P Q : Ty → Prop) (found : Option Mismatch) : Prop :=
  ∀ m ∈ found, P m.expected ∧ ∀ t ∈ m.actual, Q t

section Classes

variable {P Q : Ty → Prop}

theorem between_none : Between P Q none := by
  intro m hm
  cases hm

theorem gives_accept : accept.Gives (Between P Q) := Run.gives_pure between_none

theorem gives_reject (hd : P dst) (hs : Q src) : (reject dst src).Gives (Between P Q) := by
  refine Run.gives_pure ?_
  rintro m ⟨⟩
  refine ⟨hd, ?_⟩
  rintro t ⟨⟩
  exact hs

theorem gives_acceptIf (hd : P dst) (hs : Q src) (test : Bool) : (acceptIf test dst src).Gives (Between P Q) := by
  cases test with
  | false => exact gives_reject hd hs
  | true => exact gives_accept

theorem gives_checkFields (hd : ∀ e ∈ dst.fields, P e.2)
    (h : ∀ e ∈ dst.fields, ∀ actual, src.field? e.1 = some actual → (c.check e.2 actual).Gives (Between P Q)) :
    (c.checkFields dst src).Gives (Between P Q) := by
  rw [checkFields_eq]
  split
  · exact gives_accept
  · refine Run.gives_firstAlong between_none fun e he => ?_
    rw [checkField_eq]
    split
    · exact gives_accept
    · refine Run.gives_of_ok (Run.outcome_note _) ?_
      split
      · next actual hfound =>
        refine Run.gives_bind (h e he actual hfound) fun found hbetween => Run.gives_pure ?_
        intro m hm
        obtain ⟨m, rfl, rfl⟩ := Option.map_eq_some_iff.1 hm
        exact hbetween m rfl
      · split
        · refine Run.gives_pure ?_
          rintro m ⟨⟩
          refine ⟨hd e he, ?_⟩
          rintro t ⟨⟩
        · exact gives_accept

theorem gives_checkAggregate (hd : P dst) (hs : Q src) (h : (c.checkFields dst src).Gives (Between P Q)) :
    (c.checkAggregate dst src).Gives (Between P Q) := by
  rw [checkAggregate_eq]
  split
  · split
    · exact h
    · exact gives_reject hd hs
  · split
    · exact gives_accept
    · split
      · exact h
      · exact gives_reject hd hs

end Classes

/-- Two lazy types with providers have shapes to compare. -/
theorem ends_sameLazyShape {p q : Option (Provider Ty)} (hp : p.isSome = true) (hq : q.isSome = true) :
    (sameLazyShape p q).Ends := by
  cases p with
  | none => cases hp
  | some p =>
    cases q with
    | none => cases hq
    | some q => exact ⟨_, rfl⟩

/-- If looking up an entity ends, so does its expansion. -/
theorem ends_expandEntity (hc : c.LooksUp) (t : Ty) :
    ∃ found, t.expandEntity c.audit c.entities = .ok found := by
  unfold Ty.expandEntity
  split
  · next token look _ _ he =>
    obtain ⟨found, hfound⟩ := hc look token he
    rw [hfound]
    cases found with
    | none => exact ⟨_, rfl⟩
    | some entity =>
      simp only [bind, Except.bind, audited_aggregate]
      exact ⟨_, rfl⟩
  · exact ⟨_, rfl⟩

/-- A walk of checks stays among destinations of one class and sources of another one, and meets no fault there: the
kinds of literals have types, lazy types that meet have providers, and what is known of an entity is of the class. -/
structure Walks (c : Checker) (P Q : Ty → Prop) : Prop where
  dstPart : ∀ {t part : Ty}, P t → part ∈ t.parts → P part
  srcPart : ∀ {t part : Ty}, Q t → part ∈ t.parts → Q part
  base : ∀ {t : Ty}, Q t → t.kind = .enum → ∃ base, Ty.ofKind t.superkind = .ok base ∧ Q base
  providers : ∀ {t u : Ty}, P t → Q u → t.isLazy = true → u.isLazy = true →
    t.provider?.isSome = true ∧ u.provider?.isSome = true
  entity : ∀ {t : Ty}, P t → t.kind = .dataEntity → ∃ found, t.expandEntity c.audit c.entities = .ok found ∧
    ∀ table ∈ found, P table ∧ ∀ record, table.toRecord c.audit none = .ok record → P record

theorem Walks.exactly {P Q : Ty → Prop} (h : c.Walks P Q) : c.exactly.Walks P Q :=
  ⟨h.dstPart, h.srcPart, h.base, h.providers, h.entity⟩

section Walk

variable {P Q : Ty → Prop}

/-- Whatever is compared inside the source ends. -/
def GivesInside (c : Checker) (P Q : Ty → Prop) (src : Ty) : Prop :=
  ∀ dst actual, actual.weight < src.weight → P dst → Q actual → (c.check dst actual).Gives (Between P Q)

theorem Walks.gives_fields (h : c.Walks P Q) (hd : ∀ e ∈ dst.fields, P e.2) (hsrc : Q src)
    (ih : c.GivesInside P Q src) : (c.checkFields dst src).Gives (Between P Q) := by
  refine gives_checkFields hd fun e he actual hfound => ?_
  exact ih e.2 actual (Ty.weight_lt_of_field? hfound) (hd e he) (h.srcPart hsrc (Ty.mem_parts_of_field? hfound))

theorem Walks.gives_aggregate (h : c.Walks P Q) (hdst : P dst) (hsrc : Q src) (ih : c.GivesInside P Q src) :
    (c.checkAggregate dst src).Gives (Between P Q) := by
  refine gives_checkAggregate hdst hsrc (h.gives_fields (fun e he => ?_) hsrc ih)
  exact h.dstPart hdst (Ty.mem_parts_of_mem_fields he)

theorem Walks.gives_lazy (h : c.Walks P Q) (hdst : P dst) (hsrc : Q src) (ih : c.GivesInside P Q src)
    (hd : dst.isLazy = true) : (c.checkLazy dst src).Gives (Between P Q) := by
  rw [checkLazy_eq]
  split
  · next hs =>
    split
    · obtain ⟨hp, hq⟩ := h.providers hdst hsrc hd hs
      obtain ⟨same, hsame⟩ := ends_sameLazyShape hp hq
      exact Run.gives_of_ok hsame (gives_acceptIf hdst hsrc _)
    · exact gives_reject hdst hsrc
  · split
    · refine Run.gives_of_ok (outcome_expand _ _) ?_
      cases hexpanded : dst.expansion? with
      | none => exact gives_reject hdst hsrc
      | some expanded =>
        refine h.gives_fields (fun e he => ?_) hsrc ih
        exact h.dstPart hdst (mem_parts_of_expansion? hexpanded (Ty.mem_parts_of_mem_fields he))
    · exact gives_reject hdst hsrc

theorem Walks.gives_entity (h : c.Walks P Q) (hdst : P dst) (hsrc : Q src) (ih : c.GivesInside P Q src)
    (hk : dst.kind = .dataEntity) : (c.checkEntity dst src).Gives (Between P Q) := by
  obtain ⟨found, hfound, hclass⟩ := h.entity hdst hk
  rw [checkEntity_eq]
  refine Run.gives_of_ok hfound ?_
  cases found with
  | none => exact gives_reject hdst hsrc
  | some table =>
    obtain ⟨htable, hrecord⟩ := hclass table rfl
    obtain ⟨token, look, entity, -, -, -, rfl⟩ := (expandEntity_eq_some_iff hk).1 hfound
    dsimp only
    split
    · exact h.gives_aggregate htable hsrc ih
    · exact Run.gives_of_ok (toRecord_table _ _ _ _ _)
        (h.gives_aggregate (hrecord _ (toRecord_table _ _ _ _ _)) hsrc ih)

/-- The base of an enum is compared in its place. -/
theorem Walks.gives_restricted (h : c.Walks P Q) (hdst : P dst) (hsrc : Q src) (ih : c.GivesInside P Q src)
    (hk : src.kind = .enum) {base : Ty} (hbase : Ty.ofKind src.superkind = .ok base) :
    (do acceptIf (← c.check dst base).isNone dst src).Gives (Between P Q) := by
  obtain ⟨base', hbase', hclass⟩ := h.base hsrc hk
  rw [hbase] at hbase'
  cases hbase'
  exact Run.gives_bind (ih dst base (weight_ofKind_lt hk hbase) hdst hclass) fun _ _ => gives_acceptIf hdst hsrc _

/-- A check that stays among types of the classes ends, and so do the types of the mismatch. -/
theorem Walks.gives_check (h : c.Walks P Q) (hdst : P dst) (hsrc : Q src) :
    (c.check dst src).Gives (Between P Q) := by
  induction src using Ty.weightInduction generalizing dst with
  | step src ih =>
    have hinside : c.GivesInside P Q src := fun dst actual hlt hd ha => ih actual hlt hd ha
    rw [check_eq]
    split
    · exact gives_reject hdst hsrc
    split
    · exact gives_accept
    split
    · exact gives_acceptIf hdst hsrc _
    split
    · next hr =>
      split
      · next fault hfault =>
        obtain ⟨base, hbase, -⟩ := h.base hsrc hr.1
        rw [hfault] at hbase
        cases hbase
      · next base hbase => exact h.gives_restricted hdst hsrc hinside hr.1 hbase
    split
    · exact h.gives_aggregate hdst hsrc hinside
    · next hform => exact h.gives_lazy hdst hsrc hinside (Ty.isLazy_iff.2 ⟨_, _, _, hform⟩)
    · exact gives_acceptIf hdst hsrc _
    · next hform =>
      split
      · exact gives_accept
      split
      · exact h.gives_entity hdst hsrc hinside (Ty.kind_of_form hform)
      · exact gives_reject hdst hsrc
    · exact gives_acceptIf hdst hsrc _
    · exact gives_acceptIf hdst hsrc _

end Walk

theorem Walks.ends_check {P Q : Ty → Prop} (h : c.Walks P Q) (hdst : P dst) (hsrc : Q src) : (c.check dst src).Ends :=
  (h.gives_check hdst hsrc).ends

/-- If the directory answers, checks of sound types meet no fault. -/
theorem Answers.walks (hc : c.Answers) : c.Walks Ty.Provided Ty.Sound where
  dstPart h hpart := Ty.Everywhere.part h hpart
  srcPart h hpart := h.part hpart
  base h he := Ty.exists_ofKind (Ty.superkind_isPrimitive h.valid he)
  providers h k hlazy klazy := ⟨Ty.Everywhere.here h hlazy, Ty.Everywhere.here k.provided klazy⟩
  entity {t} _ hk := by
    obtain ⟨found, hfound⟩ := ends_expandEntity hc.looksUp t
    refine ⟨found, hfound, ?_⟩
    rintro table ⟨⟩
    obtain ⟨token, look, entity, -, hlook, hentity, rfl⟩ := (expandEntity_eq_some_iff hk).1 hfound
    obtain ⟨found, hfound, hprovided⟩ := hc look token hlook
    rw [hentity, Except.ok.injEq] at hfound
    have haggregate : ∀ shape sources,
        (Ty.node (.aggregate shape false entity.fields) (some token) sources).Provided := by
      intro shape sources
      refine .intro (fun hlazy => by cases shape <;> cases hlazy) fun part hpart => ?_
      obtain ⟨e, he, rfl⟩ := List.mem_map.1 hpart
      exact hprovided entity hfound.symm e he
    refine ⟨haggregate _ _, fun record hrecord => ?_⟩
    rw [Ty.withSources, toRecord_table] at hrecord
    cases hrecord
    exact haggregate _ _

/-- The check of a sound source ends. -/
theorem ends_check (hc : c.Answers) (hdst : dst.Provided) (hsrc : src.Sound) : (c.check dst src).Ends :=
  hc.walks.ends_check hdst hsrc

/-- The source does not fit, and the check finds that out. -/
def Refuses (c : Checker) (dst src : Ty) : Prop := (c.accepts dst src).outcome = .ok false

theorem Refuses.not_fits (h : c.Refuses dst src) : ¬ c.Fits dst src := by
  intro hfits
  rw [Refuses, accepts_eq_true_iff.2 hfits] at h
  cases h

/-- A check that ends does so in acceptance or refusal. -/
theorem fits_or_refuses_of_ends (h : (c.check dst src).Ends) : c.Fits dst src ∨ c.Refuses dst src := by
  obtain ⟨mismatch, hcheck⟩ := h
  cases mismatch with
  | none => exact .inl hcheck
  | some m =>
    right
    rw [Refuses, accepts, Run.bind_of_ok hcheck]
    rfl

theorem fits_or_refuses_of_accepts {answer : Bool} (h : (c.accepts dst src).outcome = .ok answer) :
    c.Fits dst src ∨ c.Refuses dst src := by
  cases answer with
  | true => exact .inl (accepts_eq_true_iff.1 h)
  | false => exact .inr h

/-- The check of two sound types ends in acceptance or refusal. -/
theorem fits_or_refuses (hc : c.Answers) (hdst : dst.Sound) (hsrc : src.Sound) :
    c.Fits dst src ∨ c.Refuses dst src :=
  fits_or_refuses_of_ends (ends_check hc hdst.provided hsrc)

/-! ## Classes of sound types -/

/-- A class of sound types that parts, expansions and the kinds of literals stay in, and between which checks end. -/
structure Covers (c : Checker) (K : Ty → Prop) : Prop where
  sound : ∀ {t : Ty}, K t → t.Sound
  part : ∀ {t part : Ty}, K t → part ∈ t.parts → K part
  expansion : ∀ {t expanded : Ty}, K t → t.expansion? = some expanded → K expanded
  base : ∀ {t : Ty}, K t → t.kind = .enum → ∃ base, Ty.ofKind t.superkind = .ok base ∧ K base
  decides : ∀ {t u : Ty}, K t → K u → c.Fits t u ∨ c.Refuses t u
  decidesExactly : ∀ {t u : Ty}, K t → K u → c.exactly.Fits t u ∨ c.exactly.Refuses t u

/-- If the directory answers, all sound types are covered. -/
theorem Answers.covers (hc : c.Answers) : c.Covers Ty.Sound where
  sound h := h
  part h hpart := h.part hpart
  expansion h hx := sound_expansion h hx
  base h he := Ty.exists_ofKind (Ty.superkind_isPrimitive h.valid he)
  decides h k := fits_or_refuses hc h k
  decidesExactly h k := fits_or_refuses hc.exactly h k

end Checker

end FormulaTypes
