import FormulaTypes.Catalog.Record
import FormulaTypes.Proofs.Catalog.Packed
import FormulaTypes.Proofs.Spec.RoundTrip
import FormulaTypes.Proofs.Ty.Form

/-!
# Records read back

A record is a map of its version, its text and its sources, if there are any, each of them under whatever head
(`Record.Packs`). The bytes of one hold its text and its sources again (`unpack_of_packs`), and the text of a sound type
reads back to an equal type (`Spec.Told`). So what is stored of a type is an equal type from the same sources
(`exists_encode_decode`).
-/

namespace FormulaTypes

namespace Record

/-- The bytes are a record with the current version; there is nothing of the sources if there are none. -/
inductive Packs (spec : Bytes) (sources : List Bytes) : Bytes → Prop
  | unsourced {head version key text : Bytes} (hnone : sources = []) (hhead : Packed.IsMapHead 2 head)
      (hversion : Packed.IsString Key.version.text version) (hkey : Packed.IsString Key.spec.text key)
      (htext : Packed.IsString spec text) :
      Packs spec sources (head ++ (version ++ Packed.small currentVersion) ++ (key ++ text))
  | sourced {head version key text last items : Bytes} (hsome : sources ≠ []) (hhead : Packed.IsMapHead 3 head)
      (hversion : Packed.IsString Key.version.text version) (hkey : Packed.IsString Key.spec.text key)
      (htext : Packed.IsString spec text) (hlast : Packed.IsString Key.sources.text last)
      (hitems : Packed.IsStrings sources items) :
      Packs spec sources (head ++ (version ++ Packed.small currentVersion) ++ (key ++ text) ++ (last ++ items))

theorem readEntries_of_isString {key : Key} {bytes : Bytes} (h : Packed.IsString key.text bytes) (n : Nat) (r : Record)
    (rest : Bytes) : readEntries (n + 1) r (bytes ++ rest) =
      (readValue r rest key).bind fun v => readEntries n v.1 v.2 := by
  have hof : Key.ofText? key.text = some key := by cases key <;> decide +kernel
  simp only [readEntries, Packed.readString_of_isString h, Option.bind_eq_bind, Option.bind_some, hof]

theorem readValue_version (r : Record) (rest : Bytes) :
    readValue r (Packed.small currentVersion ++ rest) .version = some ({ r with version := currentVersion }, rest) := by
  rw [readValue]
  rfl

theorem readValue_spec {spec bytes : Bytes} (h : Packed.IsString spec bytes) (r : Record) (rest : Bytes) :
    readValue r (bytes ++ rest) .spec = some ({ r with spec := spec }, rest) := by
  rw [readValue, Packed.readString_of_isString h]
  rfl

theorem readValue_sources {sources : List Bytes} {bytes : Bytes} (h : Packed.IsStrings sources bytes) (r : Record)
    (rest : Bytes) : readValue r (bytes ++ rest) .sources = some ({ r with sources := sources }, rest) := by
  rw [readValue, Packed.readStrings_of_isStrings h]
  rfl

variable {spec data : Bytes} {sources : List Bytes}

/-- What was packed is unpacked, whatever the heads. -/
theorem unpack_of_packs (h : Packs spec sources data) : unpack data = some ⟨currentVersion, spec, sources⟩ := by
  -- readers go on with what is left, so the last value is read with nothing behind it
  rw [← List.append_nil data]
  cases h with
  | unsourced hnone hhead hversion hkey htext =>
    simp only [List.append_assoc, unpack, Packed.readMapHead_of_isMapHead hhead, readEntries_of_isString hversion,
      readEntries_of_isString hkey, readValue_version, readValue_spec htext, Option.bind_some, hnone]
    rfl
  | sourced hsome hhead hversion hkey htext hlast hitems =>
    simp only [List.append_assoc, unpack, Packed.readMapHead_of_isMapHead hhead, readEntries_of_isString hversion,
      readEntries_of_isString hkey, readEntries_of_isString hlast, readValue_version, readValue_spec htext,
      readValue_sources hitems, Option.bind_some]
    rfl

/-- What is packed is a record, if its lengths can be told. -/
theorem packs_pack (hspec : spec.length < Packed.lengthBound) (hcount : sources.length < Packed.lengthBound)
    (hsources : ∀ s ∈ sources, s.length < Packed.lengthBound) : Packs spec sources (pack spec sources) := by
  have hkey : ∀ key : Key, Packed.IsString key.text (Packed.string key.text) :=
    fun key => Packed.isString_string (by cases key <;> decide +kernel)
  have htext := Packed.isString_string hspec
  cases sources with
  | nil =>
    rw [pack, List.isEmpty_nil, if_pos rfl, if_pos rfl, List.append_nil]
    exact .unsourced rfl (.short (by decide)) (hkey .version) (hkey .spec) htext
  | cons first rest =>
    have hitems := Packed.isStrings_strings hcount hsources
    rw [pack, List.isEmpty_cons, if_neg Bool.false_ne_true, if_neg Bool.false_ne_true]
    exact .sourced (List.cons_ne_nil _ _) (.short (by decide)) (hkey .version) (hkey .spec) htext (hkey .sources) hitems

/-- No heads make a record shorter than it is packed. -/
theorem length_pack_le (h : Packs spec sources data) : (pack spec sources).length ≤ data.length := by
  have hone : ∀ {n : Nat} {head : Bytes}, Packed.IsMapHead n head → 1 ≤ head.length := by
    intro n head hhead
    cases hhead <;> exact Nat.succ_pos _
  cases h with
  | unsourced hnone hhead hversion hkey htext =>
    have := hone hhead
    have := Packed.length_string_le hversion
    have := Packed.length_string_le hkey
    have := Packed.length_string_le htext
    simp only [pack, hnone, List.isEmpty_nil, if_true, List.append_nil, List.length_append, Packed.mapHead,
      List.length_singleton]
    omega
  | sourced hsome hhead hversion hkey htext hlast hitems =>
    have := hone hhead
    have := Packed.length_string_le hversion
    have := Packed.length_string_le hkey
    have := Packed.length_string_le htext
    have := Packed.length_string_le hlast
    have := Packed.length_strings_le hitems
    have hempty : sources.isEmpty = false := by simpa using hsome
    simp only [pack, hempty, Bool.false_eq_true, if_false, List.length_append, Packed.mapHead, List.length_singleton]
    omega

/-- The parts of a record are no longer than it. -/
theorem length_le_length_pack (spec : Bytes) (sources : List Bytes) :
    spec.length ≤ (pack spec sources).length ∧ sources.length ≤ (pack spec sources).length ∧
      ∀ s ∈ sources, s.length ≤ (pack spec sources).length := by
  have hspec := Packed.length_le_length_string spec
  cases sources with
  | nil =>
    refine ⟨?_, Nat.zero_le _, List.forall_mem_nil _⟩
    simp only [pack, List.length_append]
    omega
  | cons first rest =>
    have hcount := Packed.length_le_length_flatMap (first :: rest)
    have hall : (Packed.string spec).length + ((first :: rest).flatMap Packed.string).length
        ≤ (pack spec (first :: rest)).length := by
      simp only [pack, List.isEmpty_cons, Bool.false_eq_true, if_false, Packed.strings, List.length_append]
      omega
    refine ⟨by omega, by omega, ?_⟩
    intro s hs
    have := Packed.length_le_of_mem_flatMap hs
    omega

end Record

namespace Spec

theorem sources_of_spells {t : Ty} {syms : List Symbol} (h : Spells syms t) : t.sources = ∅ := by
  cases h <;> rfl

end Spec

namespace Record

theorem encode_eq_ok {t : Ty} {spec data : Bytes} (h : encode t = .ok (spec, data)) :
    Spec.isLossy t = false ∧ spec = Spec.typeText t ∧ data = pack spec t.sources.members := by
  simp only [encode, Spec.format] at h
  split at h
  · cases h
  · next hlossy =>
    cases h
    exact ⟨by simpa using hlossy, rfl, rfl⟩

/-- A record of the text and the sources of a sound type holds an equal type from the same sources. -/
theorem exists_decode_of_packs {t : Ty} {data : Bytes} (ht : t.Sound) (hlossy : Spec.isLossy t = false)
    (h : Packs (Spec.typeText t) t.sources.members data) (name : Bytes) :
    ∃ u, decode name data = .ok u ∧ u.equal t = true ∧ u.sources = t.sources := by
  obtain ⟨syms, u, hu⟩ := Spec.exists_told ht hlossy
  refine ⟨u.withSources t.sources.members, ?_, ?_, ?_⟩
  · simp only [decode, unpack_of_packs h, ne_eq, not_true_eq_false, if_false, hu.parse]
  · have hform : (u.withSources t.sources.members).equal u = true :=
      Ty.equal_of_form_eq (Ty.form_withSources u _) (Ty.token_withSources u _)
    exact Ty.equal_trans hform hu.equal
  · have hnone := Spec.sources_of_spells hu.spells
    obtain ⟨form, token, sources⟩ := u
    obtain rfl : sources = ∅ := hnone
    exact NameSet.ofList_members t.sources

/-- The record of a sound type holds an equal type from the same sources. -/
theorem exists_decode {t : Ty} {spec data : Bytes} (ht : t.Sound) (h : encode t = .ok (spec, data))
    (hdata : data.length < Packed.lengthBound) (name : Bytes) :
    ∃ u, decode name data = .ok u ∧ u.equal t = true ∧ u.sources = t.sources := by
  obtain ⟨hlossy, rfl, rfl⟩ := encode_eq_ok h
  obtain ⟨hspec, hcount, hsources⟩ := length_le_length_pack (Spec.typeText t) t.sources.members
  exact exists_decode_of_packs ht hlossy (packs_pack (Nat.lt_of_le_of_lt hspec hdata)
    (Nat.lt_of_le_of_lt hcount hdata) fun s hs => Nat.lt_of_le_of_lt (hsources s hs) hdata) name

/-- **A stored record is decoded to what was encoded.** A sound type that has a text is encoded, as a record that no
heads would make shorter, and decoded to an equal type from the same sources. Under whatever heads the lengths stand,
the same is decoded. -/
theorem exists_encode_decode {t : Ty} {spec : Bytes} (ht : t.Sound) (hf : Spec.format t = .ok spec)
    (hspec : spec.length < Packed.lengthBound) (hcount : t.sources.members.length < Packed.lengthBound)
    (hsources : ∀ s ∈ t.sources, s.length < Packed.lengthBound) (name : Bytes) :
    ∃ data, encode t = .ok (spec, data) ∧ Packs spec t.sources.members data ∧
      (∃ u, decode name data = .ok u ∧ u.equal t = true ∧ u.sources = t.sources) ∧
      ∀ other, Packs spec t.sources.members other →
        data.length ≤ other.length ∧ decode name other = decode name data := by
  have hencode : encode t = .ok (spec, pack spec t.sources.members) := by
    rw [encode, hf]
    rfl
  obtain ⟨hlossy, rfl, -⟩ := encode_eq_ok hencode
  have hpacks := packs_pack hspec hcount hsources
  refine ⟨_, hencode, hpacks, exists_decode_of_packs ht hlossy hpacks name, fun other hother => ?_⟩
  refine ⟨length_pack_le hother, ?_⟩
  rw [decode, decode, unpack_of_packs hother, unpack_of_packs hpacks]

/-- Twenty sources, of which some are too long for a short head. -/
def longSources : NameSet where
  members := (List.range 20).map fun i => List.replicate (i + 20) 98
  ordered := by decide +kernel

/-- A record with a long name, from twenty sources. -/
def longRecord : Ty :=
  .node (.aggregate .record false [(List.replicate 300 97, .ofForm (Ty.bareForm .number))]) none longSources

theorem exists_encode_decode_longRecord :
    longRecord.Sound ∧ longRecord.sources.members.length = 20 ∧
      ∃ spec data, Spec.format longRecord = .ok spec ∧ spec.length = 305 ∧ encode longRecord = .ok (spec, data) ∧
        ∃ u, decode (Bytes.ofString "t") data = .ok u ∧ u.equal longRecord = true ∧
          u.sources = longRecord.sources := by
  have ht : longRecord.Sound := by decide +kernel
  have hf : Spec.format longRecord = .ok (Spec.typeText longRecord) := by
    rw [Spec.format, if_neg (by decide +kernel)]
  have hlength : (Spec.typeText longRecord).length = 305 := by decide +kernel
  have hspec : (Spec.typeText longRecord).length < Packed.lengthBound := by
    rw [hlength]
    decide
  have hsources : ∀ s ∈ longRecord.sources, s.length < Packed.lengthBound := by
    intro s hs
    obtain ⟨i, hi, rfl⟩ := List.mem_map.1 hs
    rw [List.mem_range] at hi
    rw [List.length_replicate, Packed.lengthBound]
    omega
  obtain ⟨data, hencode, -, hdecode, -⟩ :=
    exists_encode_decode ht hf hspec (by decide +kernel) hsources (Bytes.ofString "t")
  exact ⟨ht, rfl, _, data, hf, hlength, hencode, hdecode⟩

end Record

end FormulaTypes
