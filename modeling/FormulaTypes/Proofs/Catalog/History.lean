import FormulaTypes.Catalog.Basic
import FormulaTypes.Proofs.Catalog.Record
import FormulaTypes.Proofs.NameMap
import FormulaTypes.Proofs.Run

/-!
# The history of a catalog

A catalog that is open for writing takes calls one after another; a call that fails leaves it as it is. One call that
succeeds changes what is stored under its own name and nothing else (`find?_of_result`). So after any calls a name is
bound to what the latest successful call about it left there (`find?_run`), and the catalog answers like a map of types.
-/

namespace FormulaTypes

/-- A name and a record that are not too long. -/
def Catalog.Fits (name data : Bytes) : Prop :=
  name ≠ [] ∧ name.length ≤ maxKeySize ∧ data.length ≤ maxValueSize

/-- A call that writes. -/
inductive CatalogCall where
  | put (name : Bytes) (t : Ty)
  | delete (name : Bytes)
  | putRaw (name data : Bytes)

namespace CatalogCall

/-- The name that a call is about. -/
def name : CatalogCall → Bytes
  | .put name _ | .delete name | .putRaw name _ => name

/-- What a call makes of a catalog. -/
def result (c : Catalog) : CatalogCall → Except CatalogError Catalog
  | .put name t => (c.put name t).map Prod.fst
  | .delete name => (c.delete name).map Prod.fst
  | .putRaw name data => c.putRaw name data

/-- What a successful call leaves under its name. -/
def leaves : CatalogCall → Option Bytes
  | .put _ t => (Record.encode t).toOption.map Prod.snd
  | .delete _ => none
  | .putRaw _ data => some data

/-- A call is admitted, with something stored under the live names: there is a record to delete, or one can be made,
and neither it nor its name is too long. -/
def Admitted (live : Bytes → Prop) : CatalogCall → Prop
  | .put name t => ∃ e, Record.encode t = .ok e ∧ Catalog.Fits name e.2
  | .delete name => live name
  | .putRaw name data => Catalog.Fits name data

end CatalogCall

namespace Catalog

/-- The catalog is open for writing. -/
def IsWritable (c : Catalog) : Prop := c.handle = ⟨false, true⟩

variable {c d : Catalog} {call : CatalogCall} {calls : List CatalogCall} {name data : Bytes}

theorem IsWritable.reading (h : c.IsWritable) : c.reading = .ok c.file.toRecords := by
  rw [Catalog.reading, h]
  rfl

theorem IsWritable.writing (h : c.IsWritable) : c.writing = .ok c.file.toRecords := by
  rw [Catalog.writing, h.reading, h]
  rfl

theorem IsWritable.withRecords (h : c.IsWritable) (records : OrderedMap Bytes) :
    (c.withRecords records).IsWritable := h

/-! ## One call -/

theorem store_eq_ok_iff (h : c.IsWritable) :
    c.store name data = .ok d ↔ Fits name data ∧ d = c.withRecords (c.file.toRecords.insert name data) := by
  have hstore : c.store name data =
      if name.isEmpty then .error .keyRequired
      else if maxKeySize < name.length then .error .keyTooLarge
      else if maxValueSize < data.length then .error .valueTooLarge
      else .ok (c.withRecords (c.file.toRecords.insert name data)) := by
    rw [store, h.writing]
    rfl
  rw [hstore]
  split_ifs with hempty hkey hvalue
  · refine iff_of_false (by rintro ⟨⟩) ?_
    rintro ⟨hfits, -⟩
    exact hfits.1 (List.isEmpty_iff.1 hempty)
  · refine iff_of_false (by rintro ⟨⟩) ?_
    rintro ⟨hfits, -⟩
    exact absurd hkey (Nat.not_lt.2 hfits.2.1)
  · refine iff_of_false (by rintro ⟨⟩) ?_
    rintro ⟨hfits, -⟩
    exact absurd hvalue (Nat.not_lt.2 hfits.2.2)
  · have hfits : Fits name data := ⟨by simpa using hempty, Nat.not_lt.1 hkey, Nat.not_lt.1 hvalue⟩
    exact ⟨fun h => ⟨hfits, (Except.ok.inj h).symm⟩, fun h => congrArg Except.ok h.2.symm⟩

theorem mapError_eq_ok_iff {ε ε' α : Type} {f : ε → ε'} {x : Except ε α} {a : α} :
    x.mapError f = .ok a ↔ x = .ok a := by
  cases x with
  | error e => simp [Except.mapError]
  | ok b => simp [Except.mapError]

theorem map_fst_eq_ok_iff {ε α β : Type} {x : Except ε (α × β)} {a : α} :
    x.map Prod.fst = .ok a ↔ ∃ b, x = .ok (a, b) := by
  cases x with
  | error e => simp [Except.map]
  | ok p => simp [Except.map, Prod.ext_iff]

theorem result_put (h : c.IsWritable) {t : Ty} :
    (CatalogCall.put name t).result c = .ok d ↔ ∃ e, Record.encode t = .ok e ∧ Fits name e.2 ∧
      d = c.withRecords (c.file.toRecords.insert name e.2) := by
  simp only [CatalogCall.result, put, named, map_fst_eq_ok_iff, mapError_eq_ok_iff, bind_eq_ok_iff, store_eq_ok_iff h]
  constructor
  · rintro ⟨logs, e, he, d', ⟨hfits, rfl⟩, ⟨⟩⟩
    exact ⟨e, he, hfits, rfl⟩
  · rintro ⟨e, he, hfits, rfl⟩
    exact ⟨_, e, he, _, ⟨hfits, rfl⟩, rfl⟩

theorem result_delete (h : c.IsWritable) :
    (CatalogCall.delete name).result c = .ok d ↔
      c.file.toRecords.contains name = true ∧ d = c.withRecords (c.file.toRecords.erase name) := by
  simp only [CatalogCall.result, delete, named, map_fst_eq_ok_iff, mapError_eq_ok_iff, bind_eq_ok_iff, h.writing]
  constructor
  · rintro ⟨logs, records, ⟨⟩, hdelete⟩
    split at hdelete
    · next hfound =>
      cases hdelete
      exact ⟨hfound, rfl⟩
    · cases hdelete
  · rintro ⟨hfound, rfl⟩
    exact ⟨[.delete name], _, rfl, if_pos hfound⟩

theorem result_putRaw (h : c.IsWritable) :
    (CatalogCall.putRaw name data).result c = .ok d ↔
      Fits name data ∧ d = c.withRecords (c.file.toRecords.insert name data) := by
  rw [CatalogCall.result, putRaw, mapError_eq_ok_iff, store_eq_ok_iff h]

/-- A call succeeds if it is admitted. -/
theorem exists_result_iff (h : c.IsWritable) :
    (∃ d, call.result c = .ok d) ↔ call.Admitted fun name => c.file.toRecords.contains name = true := by
  cases call with
  | put name t => simp [result_put h, CatalogCall.Admitted]
  | delete name => simp [result_delete h, CatalogCall.Admitted]
  | putRaw name data => simp [result_putRaw h, CatalogCall.Admitted]

/-- A call that succeeds changes what is stored under its name and nothing else. -/
theorem find?_of_result (h : c.IsWritable) (hd : call.result c = .ok d) (name : Bytes) :
    d.file.toRecords.find? name = if call.name = name then call.leaves else c.file.toRecords.find? name := by
  cases call with
  | put key t =>
    obtain ⟨e, he, -, rfl⟩ := (result_put h).1 hd
    have hleaves : (CatalogCall.put key t).leaves = some e.2 := by
      rw [CatalogCall.leaves, he]
      rfl
    rw [hleaves]
    exact OrderedMap.find?_insert _ key e.2 name
  | delete key =>
    obtain ⟨-, rfl⟩ := (result_delete h).1 hd
    exact OrderedMap.find?_erase _ key name
  | putRaw key data =>
    obtain ⟨-, rfl⟩ := (result_putRaw h).1 hd
    exact OrderedMap.find?_insert _ key data name

theorem IsWritable.of_result (h : c.IsWritable) (hd : call.result c = .ok d) : d.IsWritable := by
  cases call with
  | put key t =>
    obtain ⟨e, -, -, rfl⟩ := (result_put h).1 hd
    exact h.withRecords _
  | delete key =>
    obtain ⟨-, rfl⟩ := (result_delete h).1 hd
    exact h.withRecords _
  | putRaw key data =>
    obtain ⟨-, rfl⟩ := (result_putRaw h).1 hd
    exact h.withRecords _

/-! ## Many calls -/

/-- The catalog after a call; a failed call leaves it as it is. -/
def after (c : Catalog) (call : CatalogCall) : Catalog := (call.result c).toOption.getD c

/-- The catalog after some calls. -/
def run (c : Catalog) (calls : List CatalogCall) : Catalog := calls.foldl after c

/-- The latest of some calls that was about a name and succeeded. -/
def latest (name : Bytes) : Catalog → List CatalogCall → Option CatalogCall
  | _, [] => none
  | c, call :: calls =>
    (latest name (c.after call) calls).or <|
      if call.name = name ∧ (call.result c).isOk = true then some call else none

/-- Something is stored under a name after some calls: the latest successful call about it stored something, or there
was none and something was stored from the start. -/
def IsLive (c : Catalog) (calls : List CatalogCall) (name : Bytes) : Prop :=
  match c.latest name calls with
  | some (.put _ _) | some (.putRaw _ _) => True
  | some (.delete _) => False
  | none => c.file.toRecords.contains name = true

theorem after_cases (c : Catalog) (call : CatalogCall) :
    call.result c = .ok (c.after call) ∨ ((call.result c).isOk = false ∧ c.after call = c) := by
  unfold after
  cases call.result c with
  | error e => exact .inr ⟨rfl, rfl⟩
  | ok d => exact .inl rfl

theorem IsWritable.after (h : c.IsWritable) (call : CatalogCall) : (c.after call).IsWritable := by
  rcases after_cases c call with hd | ⟨-, hd⟩
  · exact h.of_result hd
  · rwa [hd]

theorem IsWritable.run (h : c.IsWritable) (calls : List CatalogCall) : (c.run calls).IsWritable := by
  induction calls generalizing c with
  | nil => exact h
  | cons call calls ih => exact ih (h.after call)

/-- A failed call changes nothing for any later call. -/
theorem run_of_failed {before later : List CatalogCall} {e : CatalogError}
    (h : call.result (c.run before) = .error e) : c.run (before ++ call :: later) = c.run (before ++ later) := by
  have hafter : (c.run before).after call = c.run before := by
    rw [after, h]
    rfl
  have happend : ∀ calls, c.run (before ++ calls) = (c.run before).run calls := fun calls => List.foldl_append
  have hstep : (c.run before).run (call :: later) = ((c.run before).after call).run later := rfl
  rw [happend, happend, hstep, hafter]

/-- A further call is the latest one if it succeeds. -/
theorem latest_concat (name : Bytes) (c : Catalog) (calls : List CatalogCall) (call : CatalogCall) :
    c.latest name (calls ++ [call]) =
      if call.name = name ∧ (call.result (c.run calls)).isOk = true then some call else c.latest name calls := by
  induction calls generalizing c with
  | nil =>
    by_cases h : call.name = name ∧ (call.result c).isOk = true
    · simp [latest, run, h]
    · simp [latest, run, h]
  | cons first calls ih =>
    have hrun : c.run (first :: calls) = (c.after first).run calls := rfl
    rw [List.cons_append, latest, latest, ih, hrun]
    by_cases h : call.name = name ∧ (call.result ((c.after first).run calls)).isOk = true
    · rw [if_pos h, if_pos h, Option.some_or]
    · rw [if_neg h, if_neg h]

/-- The latest successful call was among the calls, was about the name, and succeeded. -/
theorem of_latest (h : c.IsWritable) (hl : c.latest name calls = some call) :
    call ∈ calls ∧ call.name = name ∧ ∃ live, call.Admitted live := by
  induction calls generalizing c with
  | nil => cases hl
  | cons first calls ih =>
    rw [latest] at hl
    cases hrest : (c.after first).latest name calls with
    | some later =>
      rw [hrest] at hl
      cases hl
      obtain ⟨hmem, hname, hadmitted⟩ := ih (h.after first) hrest
      exact ⟨List.mem_cons_of_mem _ hmem, hname, hadmitted⟩
    | none =>
      rw [hrest, Option.none_or] at hl
      split at hl
      · next hfirst =>
        cases hl
        refine ⟨List.mem_cons_self, hfirst.1, _, (exists_result_iff h).1 ?_⟩
        rcases after_cases c call with hd | ⟨hfailed, -⟩
        · exact ⟨_, hd⟩
        · rw [hfailed] at hfirst
          cases hfirst.2
      · cases hl

/-- After some calls a name is bound to what the latest successful call about it left there. -/
theorem find?_run (h : c.IsWritable) (name : Bytes) :
    (c.run calls).file.toRecords.find? name = match c.latest name calls with
      | some call => call.leaves
      | none => c.file.toRecords.find? name := by
  induction calls generalizing c with
  | nil => rfl
  | cons call calls ih =>
    change ((c.after call).run calls).file.toRecords.find? name = _
    rw [ih (h.after call), latest]
    cases (c.after call).latest name calls with
    | some later => rfl
    | none =>
      rw [Option.none_or]
      rcases after_cases c call with hd | ⟨hfailed, hd⟩
      · have hok : (call.result c).isOk = true := by
          rw [hd]
          rfl
        rw [find?_of_result h hd, hok]
        by_cases hname : call.name = name
        · simp [hname]
        · simp [hname]
      · rw [hd, hfailed]
        simp

/-! ## Answers -/

theorem get_eq_ok_iff (h : c.IsWritable) {t : Ty} :
    c.get name = .ok t ↔ ∃ data, c.file.toRecords.find? name = some data ∧ Record.decode name data = .ok t := by
  simp only [get, named, mapError_eq_ok_iff, bind_eq_ok_iff, h.reading]
  constructor
  · rintro ⟨records, ⟨⟩, hget⟩
    split at hget
    · next data hfound => exact ⟨data, hfound, mapError_eq_ok_iff.1 hget⟩
    · cases hget
  · rintro ⟨data, hfound, hdecode⟩
    refine ⟨_, rfl, ?_⟩
    rw [hfound]
    exact mapError_eq_ok_iff.2 hdecode

theorem get_of_find?_eq_none (h : c.IsWritable) (hnone : c.file.toRecords.find? name = none) :
    c.get name = .error ⟨some (.get name), .notFound⟩ := by
  rw [get, h.reading]
  dsimp only [bind, Except.bind]
  rw [hnone]
  rfl

theorem names_eq (h : c.IsWritable) : c.names = .ok c.file.toRecords.names := by
  rw [names, h.reading]
  rfl

/-- All types are given by name and in order, each as it is got by its name. -/
theorem exists_all (h : c.IsWritable) :
    ∃ types logs, c.all = .ok (types, logs) ∧ NameMap.Ordered types ∧
      ∀ name t, (name, t) ∈ types ↔ c.get name = .ok t := by
  let decoded := c.file.toRecords.entries.map fun e => (e.1, Record.decode e.1 e.2)
  obtain ⟨logs, hall⟩ : ∃ logs, c.all = .ok (decoded.filterMap fun e => e.2.toOption.map (e.1, ·), logs) := by
    rw [all, h.reading]
    exact ⟨_, rfl⟩
  have htypes : (decoded.filterMap fun e => e.2.toOption.map (e.1, ·)) =
      c.file.toRecords.entries.filterMap fun e => (Record.decode e.1 e.2).toOption.map (e.1, ·) := List.filterMap_map
  rw [htypes] at hall
  refine ⟨_, logs, hall, c.file.toRecords.ordered.filterMap ?_, ?_⟩
  · intro e e' he
    obtain ⟨t, -, rfl⟩ := Option.map_eq_some_iff.1 he
    rfl
  · intro name t
    rw [get_eq_ok_iff h, List.mem_filterMap]
    constructor
    · rintro ⟨⟨key, data⟩, hmem, hdecode⟩
      obtain ⟨u, hu, ⟨⟩⟩ := Option.map_eq_some_iff.1 hdecode
      refine ⟨data, NameMap.find?_of_mem c.file.toRecords.ordered hmem, ?_⟩
      cases hd : Record.decode key data with
      | error e => simp [hd, Except.toOption] at hu
      | ok u => simpa [hd, Except.toOption] using hu
    · rintro ⟨data, hfound, hdecode⟩
      refine ⟨(name, data), NameMap.mem_of_find? hfound, ?_⟩
      rw [hdecode]
      rfl

theorem isLive_iff (h : c.IsWritable) (name : Bytes) :
    c.IsLive calls name ↔ (c.run calls).file.toRecords.contains name = true := by
  rw [IsLive, OrderedMap.contains_eq (c.run calls).file.toRecords, find?_run h]
  cases hl : c.latest name calls with
  | none => rfl
  | some call =>
    cases call with
    | put key t =>
      obtain ⟨-, -, -, e, he, -⟩ := of_latest h hl
      simp [CatalogCall.leaves, he, Except.toOption]
    | delete key => simp [CatalogCall.leaves]
    | putRaw key data => simp [CatalogCall.leaves]

/-- A sound type that was put last is got back, up to equality, with its sources. -/
theorem exists_get (h : c.IsWritable) {t : Ty} (hl : c.latest name calls = some (.put name t)) (ht : t.Sound) :
    ∃ u, (c.run calls).get name = .ok u ∧ u.equal t = true ∧ u.sources = t.sources := by
  obtain ⟨-, -, -, ⟨spec, data⟩, hencode, hfits⟩ := of_latest h hl
  have hsize : data.length < Packed.lengthBound := by
    have hfits : data.length ≤ maxValueSize := hfits.2.2
    unfold maxValueSize at hfits
    unfold Packed.lengthBound
    omega
  obtain ⟨u, hu, hequal, hsame⟩ := Record.exists_decode ht hencode hsize name
  refine ⟨u, (get_eq_ok_iff (h.run calls)).2 ⟨data, ?_, hu⟩, hequal, hsame⟩
  rw [find?_run h, hl]
  simp [CatalogCall.leaves, hencode, Except.toOption]

/-- **An open catalog answers like a map of types**, after any calls. A type that was put last under a name, and is
sound, is got back with its sources; a name under which nothing is stored is not found; just the admitted calls succeed;
a failed call changes nothing for any later one; the names are those under which something is stored, in order; and all
types are those that can be got by their names. Nothing is asked of the other types that were put. -/
theorem run_answers (hc : c.IsWritable) (calls : List CatalogCall) :
    (∀ name t, c.latest name calls = some (.put name t) → t.Sound →
      ∃ u, (c.run calls).get name = .ok u ∧ u.equal t = true ∧ u.sources = t.sources) ∧
    (∀ name, ¬ c.IsLive calls name → (c.run calls).get name = .error ⟨some (.get name), .notFound⟩) ∧
    (∀ call : CatalogCall, (∃ d, call.result (c.run calls) = .ok d) ↔ call.Admitted (c.IsLive calls)) ∧
    (∀ before call later e, call.result (c.run before) = .error e →
      c.run (before ++ call :: later) = c.run (before ++ later)) ∧
    (∃ names, (c.run calls).names = .ok names ∧ names.Pairwise (fun a b => Bytes.precedes a b = true) ∧
      ∀ name, name ∈ names ↔ c.IsLive calls name) ∧
    (∃ types logs, (c.run calls).all = .ok (types, logs) ∧ NameMap.Ordered types ∧
      ∀ name t, (name, t) ∈ types ↔ c.IsLive calls name ∧ (c.run calls).get name = .ok t) := by
  have hrun := hc.run calls
  refine ⟨fun name t hl ht => exists_get hc hl ht, ?_, ?_, fun before call later e h => run_of_failed h,
    ⟨_, names_eq hrun, (c.run calls).file.toRecords.ordered, ?_⟩, ?_⟩
  · intro name hlive
    refine get_of_find?_eq_none hrun ?_
    rw [isLive_iff hc, OrderedMap.contains_eq] at hlive
    simpa using hlive
  · intro call
    rw [exists_result_iff hrun]
    have hsame : c.IsLive calls = fun name => (c.run calls).file.toRecords.contains name = true :=
      funext fun name => propext (isLive_iff hc name)
    rw [hsame]
  · intro name
    rw [OrderedMap.mem_names_iff, isLive_iff hc]
  · obtain ⟨types, logs, hall, hordered, htypes⟩ := exists_all hrun
    refine ⟨types, logs, hall, hordered, fun name t => ?_⟩
    rw [htypes, iff_and_self, isLive_iff hc]
    intro hget
    obtain ⟨data, hfound, -⟩ := (get_eq_ok_iff hrun).1 hget
    rw [OrderedMap.contains_eq, hfound]
    rfl

/-- A catalog in a new file. -/
def fresh : Catalog := ⟨.database (some .empty), ⟨false, true⟩⟩

/-- Numbers that come from two places. -/
def sourcedNumber : Ty :=
  (Ty.ofForm (Ty.bareForm .number)).withSources [Bytes.ofString "orders", Bytes.ofString "ledger"]

/-- An enum of records, which is not valid. -/
def enumOfRecords : Ty := .ofForm (.enum .record .empty)

/-- Two puts under one name, with a put of a type that is not valid, a failed delete and bytes that are no record in
between. -/
def replacingCalls : List CatalogCall :=
  [.put (Bytes.ofString "a") (.ofForm (.aggregate .record false [])), .put (Bytes.ofString "b") enumOfRecords,
   .delete (Bytes.ofString "c"), .putRaw (Bytes.ofString "c") [0xC1], .put (Bytes.ofString "a") sourcedNumber]

theorem run_answers_replacingCalls :
    fresh.IsWritable ∧
      fresh.latest (Bytes.ofString "a") replacingCalls = some (.put (Bytes.ofString "a") sourcedNumber) ∧
      sourcedNumber.Sound ∧
      (∃ u, (fresh.run replacingCalls).get (Bytes.ofString "a") = .ok u ∧ u.equal sourcedNumber = true ∧
        u.sources.members = [Bytes.ofString "ledger", Bytes.ofString "orders"]) := by
  have hsound : sourcedNumber.Sound := by decide +kernel
  have hlatest : fresh.latest (Bytes.ofString "a") replacingCalls =
      some (.put (Bytes.ofString "a") sourcedNumber) := by
    rw [show replacingCalls = replacingCalls.take 4 ++ [.put (Bytes.ofString "a") sourcedNumber] from rfl,
      latest_concat, if_pos ⟨rfl, by decide +kernel⟩]
  obtain ⟨hget, -⟩ := run_answers (c := fresh) rfl replacingCalls
  obtain ⟨u, hu, hequal, hsources⟩ := hget _ sourcedNumber hlatest hsound
  refine ⟨rfl, hlatest, hsound, u, hu, hequal, ?_⟩
  rw [hsources]
  decide +kernel

/-- A type that is not valid can be put, and not be got back. -/
theorem get_enumOfRecords :
    open? .missing false = some fresh ∧ fresh.IsWritable ∧
      fresh.latest (Bytes.ofString "t") [.put (Bytes.ofString "t") enumOfRecords] =
        some (.put (Bytes.ofString "t") enumOfRecords) ∧
      ∀ u, (fresh.run [.put (Bytes.ofString "t") enumOfRecords]).get (Bytes.ofString "t") ≠ .ok u := by
  refine ⟨rfl, rfl, ?_, ?_⟩
  · rw [← List.nil_append [CatalogCall.put _ _], latest_concat, if_pos ⟨rfl, by decide +kernel⟩]
  · intro u hu
    have hfailed : ((fresh.run [.put (Bytes.ofString "t") enumOfRecords]).get (Bytes.ofString "t")).isOk = false := by
      decide +kernel
    rw [hu] at hfailed
    cases hfailed

end Catalog

end FormulaTypes
