import SetCover.Instance.Json
import SetCover.Proofs.Instance.Grammar
import SetCover.Proofs.Json.Decoding
import SetCover.Proofs.Json.Printing

/-!
# Records of instances

The record of an instance has six fields, of which five are read: what a subset contains is made
anew from what holds the elements. So an instance comes back from its own record, and another record
is worth as much as the data in its five fields.

* `recordKeys`: the keys that are read.
* `IsRecordOf`: some fields hold these data.
* `data?_eq_some_iff`: the data that are found in an object.
* `readJson_eq_ok_iff`: reading a record is building an instance from its data.
* `readJson_of_without`: a key that is not read does not matter.
* `isRecordOf_toJson`: the record of an instance holds its own data.
* `record_roundTrip`: all of this about the texts of records.
-/

namespace SetCover.Instance

open Json (IsNatural IsText IsListOf HasField valuesOf)

variable {fields fields' : List (Option String × Json)} {data : Data} {text text' : String}

/-! ## Data in an object -/

/-- The keys that are read. -/
def recordKeys : List String := ["name", "element_count", "subset_count", "costs", "coverage"]

/-- Every key has characters, and the fields that are read hold these data, each of them once. The
name may be missing. -/
structure IsRecordOf (fields : List (Option String × Json)) (data : Data) : Prop where
  keys : ∀ f ∈ fields, f.1.isSome = true
  name : HasField IsText fields "name" data.name ∨ valuesOf fields "name" = [] ∧ data.name = ""
  elementCount : HasField (IsNatural wordBound) fields "element_count" data.elementCount
  subsetCount : HasField (IsNatural wordBound) fields "subset_count" data.subsetCount
  costs : HasField (IsListOf (IsNatural wordBound)) fields "costs" data.costs
  rows : HasField (IsListOf (IsListOf (IsNatural wordBound))) fields "coverage" data.rows

theorem length_valuesOf_le_one {α : Type} {Is : Json → α → Prop} {key : String} {a : α}
    (h : HasField Is fields key a) : (valuesOf fields key).length ≤ 1 := by
  obtain ⟨v, hvalues, _⟩ := h
  rw [hvalues]
  exact Nat.le_refl 1

theorem IsRecordOf.keysInOrder (h : IsRecordOf fields data) :
    Json.keysInOrder recordKeys fields = true := by
  rw [Json.keysInOrder_iff]
  refine ⟨h.keys, fun key hkey => ?_⟩
  simp only [recordKeys, List.mem_cons, List.not_mem_nil, or_false] at hkey
  rcases hkey with rfl | rfl | rfl | rfl | rfl
  · rcases h.name with hname | ⟨hname, _⟩
    · exact length_valuesOf_le_one hname
    · rw [hname]
      exact Nat.zero_le 1
  · exact length_valuesOf_le_one h.elementCount
  · exact length_valuesOf_le_one h.subsetCount
  · exact length_valuesOf_le_one h.costs
  · exact length_valuesOf_le_one h.rows

/-- An object in which no known key is repeated is decoded field by field. -/
theorem data?_of_keysInOrder (h : Json.keysInOrder recordKeys fields = true) :
    data? (.object fields) = some data ↔
      Json.withDefault? "" Json.string? (Json.fieldValue fields "name") = some data.name ∧
      Json.required? (Json.natural? wordBound) (Json.fieldValue fields "element_count") =
        some data.elementCount ∧
      Json.required? (Json.natural? wordBound) (Json.fieldValue fields "subset_count") =
        some data.subsetCount ∧
      Json.required? (Json.list? (Json.natural? wordBound)) (Json.fieldValue fields "costs") =
        some data.costs ∧
      Json.required? (Json.list? (Json.list? (Json.natural? wordBound)))
        (Json.fieldValue fields "coverage") = some data.rows := by
  have hrecord : Json.record? recordKeys (.object fields) =
      some (recordKeys.map (Json.fieldValue fields)) := if_pos h
  show (Json.record? recordKeys (.object fields)).bind _ = _ ↔ _
  rw [hrecord, Option.bind_some]
  simp only [recordKeys, List.map, Option.bind_eq_bind, Option.bind_eq_some_iff, Option.some_inj]
  constructor
  · rintro ⟨name, hname, elementCount, helements, subsetCount, hsubsets, costs, hcosts, rows, hrows,
      rfl⟩
    exact ⟨hname, helements, hsubsets, hcosts, hrows⟩
  · rintro ⟨hname, helements, hsubsets, hcosts, hrows⟩
    exact ⟨_, hname, _, helements, _, hsubsets, _, hcosts, _, hrows, rfl⟩

/-- The data that are found in an object. -/
theorem data?_eq_some_iff : data? (.object fields) = some data ↔ IsRecordOf fields data := by
  cases horder : Json.keysInOrder recordKeys fields with
  | false =>
      have hnone : data? (.object fields) = none := by
        have hrecord : Json.record? recordKeys (.object fields) = none :=
          if_neg (Bool.eq_false_iff.mp horder)
        show (Json.record? recordKeys (.object fields)).bind _ = none
        rw [hrecord, Option.bind_none]
      constructor
      · intro h
        rw [hnone] at h
        cases h
      · intro h
        rw [h.keysInOrder] at horder
        cases horder
  | true =>
      obtain ⟨hkeys, hlength⟩ := Json.keysInOrder_iff.mp horder
      simp only [recordKeys, List.forall_mem_cons] at hlength
      obtain ⟨hname, helements, hsubsets, hcosts, hrows, -⟩ := hlength
      have hnatural := Json.natural?_eq_some_iff wordBound
      have hlist := Json.list?_eq_some_iff hnatural
      rw [data?_of_keysInOrder horder, Json.withDefault?_eq_some_iff Json.string?_eq_some_iff hname,
        Json.required?_eq_some_iff hnatural helements,
        Json.required?_eq_some_iff hnatural hsubsets, Json.required?_eq_some_iff hlist hcosts,
        Json.required?_eq_some_iff (Json.list?_eq_some_iff hlist) hrows]
      constructor
      · rintro ⟨hname, helements, hsubsets, hcosts, hrows⟩
        exact ⟨hkeys, hname, helements, hsubsets, hcosts, hrows⟩
      · rintro ⟨-, hname, helements, hsubsets, hcosts, hrows⟩
        exact ⟨hname, helements, hsubsets, hcosts, hrows⟩

/-! ## Reading a record -/

theorem readJson_of_whole {v : Json} (h : Json.ofText? text = some (v, true)) :
    readJson text = ofJson v := by
  unfold readJson
  rw [h]
  dsimp only
  cases ofJson v <;> rfl

/-- Reading a record is building an instance from its data, under the name that it gives. -/
theorem readJson_of_build {inst : Instance}
    (htext : Json.ofText? text = some (.object fields, true)) (h : IsRecordOf fields data)
    (hbuild : build data.elementCount data.subsetCount data.costs data.rows = .ok inst) :
    readJson text = .ok (inst.named data.name) := by
  rw [readJson_of_whole htext, ofJson, data?_eq_some_iff.mpr h]
  dsimp only
  rw [hbuild]

theorem readJson_of_refused {why : Misfit}
    (htext : Json.ofText? text = some (.object fields, true)) (h : IsRecordOf fields data)
    (hbuild : build data.elementCount data.subsetCount data.costs data.rows =
      .error (.invalid why)) : readJson text = .error (.json (some why)) := by
  rw [readJson_of_whole htext, ofJson, data?_eq_some_iff.mpr h]
  dsimp only
  rw [hbuild]

theorem exists_misfit {elementCount subsetCount : Nat} {costs : List Nat} {rows : List (List Nat)}
    {fault : Fault} (h : build elementCount subsetCount costs rows = .error fault) :
    ∃ why, fault = .invalid why := by
  rcases build_eq_error_iff.mp h with ⟨_, rfl⟩ | ⟨_, _, rfl⟩ | ⟨_, _, e, s, _, rfl⟩ <;>
    exact ⟨_, rfl⟩

/-- A record is read as an instance exactly when one can be built from its data. -/
theorem readJson_eq_ok_iff {inst : Instance}
    (htext : Json.ofText? text = some (.object fields, true)) (h : IsRecordOf fields data) :
    readJson text = .ok inst ↔
      ∃ built, build data.elementCount data.subsetCount data.costs data.rows = .ok built ∧
        inst = built.named data.name := by
  constructor
  · intro hread
    cases hbuild : build data.elementCount data.subsetCount data.costs data.rows with
    | ok built =>
        rw [readJson_of_build htext h hbuild] at hread
        cases hread
        exact ⟨built, rfl, rfl⟩
    | error fault =>
        obtain ⟨why, rfl⟩ := exists_misfit hbuild
        rw [readJson_of_refused htext h hbuild] at hread
        cases hread
  · rintro ⟨built, hbuild, rfl⟩
    exact readJson_of_build htext h hbuild

/-- A record is read by its five fields. -/
theorem readJson_congr {whole : Bool} (htext : Json.ofText? text = some (.object fields, whole))
    (htext' : Json.ofText? text' = some (.object fields', whole))
    (hkeys : (∀ f ∈ fields', f.1.isSome = true) ↔ ∀ f ∈ fields, f.1.isSome = true)
    (hvalues : ∀ key ∈ recordKeys, valuesOf fields' key = valuesOf fields key) :
    readJson text' = readJson text := by
  have hdata : data? (.object fields') = data? (.object fields) := by
    show (Json.record? recordKeys (.object fields')).bind _ =
      (Json.record? recordKeys (.object fields)).bind _
    rw [Json.record?_congr hkeys hvalues]
  rw [readJson, readJson, htext, htext']
  dsimp only
  rw [ofJson, ofJson, hdata]

/-- What stands under a key that is not read does not change the result. -/
theorem readJson_of_without {whole : Bool} {key : String} (hkey : key ∉ recordKeys)
    (htext : Json.ofText? text = some (.object fields, whole))
    (htext' : Json.ofText? text' = some (.object fields', whole))
    (hsame : Json.without fields' key = Json.without fields key) :
    readJson text' = readJson text := by
  refine readJson_congr htext htext' ?_ fun known hknown => ?_
  · rw [← Json.isSome_without fields' key, hsame, Json.isSome_without]
  · have hne : known ≠ key := fun heq => hkey (heq ▸ hknown)
    rw [← Json.valuesOf_without hne, hsame, Json.valuesOf_without hne]

/-! ## The record of an instance -/

/-- The data of an instance. -/
def toData (inst : Instance) : Data where
  name := inst.name
  elementCount := inst.elementCount
  subsetCount := inst.subsetCount
  costs := inst.costs.toList
  rows := inst.rows

/-- The numbers of an instance that are written have 64 bits. -/
structure FitsWords (inst : Instance) : Prop where
  elementCount : inst.elementCount < wordBound
  subsetCount : inst.subsetCount < wordBound
  costs : ∀ cost ∈ inst.costs, cost < wordBound

theorem toJson_rows (inst : Instance) :
    (inst.holders.toList.map fun row => Json.ofNats row.toList) = inst.rows.map Json.ofNats := by
  rw [rows, List.map_map]
  rfl

/-- The record of an instance holds its own data. -/
theorem isRecordOf_toJson {inst : Instance} (h : inst.FitsWords) :
    ∃ fields, inst.toJson = .object fields ∧ IsRecordOf fields inst.toData := by
  have hcosts : ∀ cost ∈ inst.costs.toList, cost < wordBound := fun cost hcost =>
    h.costs cost (Array.mem_toList_iff.mp hcost)
  have hrows : ∀ row ∈ inst.rows, ∀ s ∈ row, s < wordBound := fun row hrow s hs =>
    Nat.lt_trans (mem_rows_lt row hrow s hs) h.subsetCount
  refine ⟨_, rfl, ?_, Or.inl ⟨_, rfl, rfl⟩, ⟨_, rfl, Json.isNatural_ofNat h.elementCount⟩,
    ⟨_, rfl, Json.isNatural_ofNat h.subsetCount⟩, ⟨_, rfl, Json.isListOf_ofNats hcosts⟩,
    ⟨_, rfl, ?_⟩⟩
  · simp
  · rw [toJson_rows]
    exact Json.isListOf_map fun row hrow => Json.isListOf_ofNats (hrows row hrow)

theorem writable_toJson (inst : Instance) : Json.Writable inst.toJson := by
  have hrows : ∀ sets : List IdSet,
      Json.Writable (.array (sets.map fun row => Json.ofNats row.toList)) := fun sets =>
    Json.writable_map fun row _ => Json.writable_ofNats row.toList
  refine .object ?_
  simp only [List.forall_mem_cons]
  exact ⟨Json.writable_ofString inst.name, Json.writable_ofNat inst.elementCount,
    Json.writable_ofNat inst.subsetCount, Json.writable_ofNats inst.costs.toList,
    hrows inst.holders.toList, hrows inst.contents.toList, List.forall_mem_nil _⟩

/-- An instance comes back from any text that is read as its record. -/
theorem readJson_of_toJson {inst : Instance} (h : inst.FitsWords)
    (htext : Json.ofText? text = some (inst.toJson, true)) : readJson text = .ok inst := by
  obtain ⟨fields, hfields, hrecord⟩ := isRecordOf_toJson h
  rw [hfields] at htext
  have hbuild : build inst.toData.elementCount inst.toData.subsetCount inst.toData.costs
      inst.toData.rows = .ok (inst.named "") := inst.build_rows
  have hread := readJson_of_build htext hrecord hbuild
  exact hread

/-- An instance that is built from numbers of 64 bits fits, under any name. -/
theorem fitsWords_named {elementCount subsetCount : Nat} {costs : List Nat}
    {rows : List (List Nat)} {built : Instance}
    (hbuild : build elementCount subsetCount costs rows = .ok built)
    (helements : elementCount < wordBound) (hsubsets : subsetCount < wordBound)
    (hcosts : ∀ cost ∈ costs, cost < wordBound) (name : String) : (built.named name).FitsWords := by
  obtain ⟨hcostCount, hrowCount, -, hbuilt⟩ := build_eq_ok hbuild
  refine ⟨?_, ?_, fun cost hcost => ?_⟩
  · show built.holders.size < wordBound
    rwa [← Array.length_toList, hbuilt.holders.length_eq, hrowCount]
  · show built.costs.size < wordBound
    rwa [← Array.length_toList, hbuilt.costs_eq, hcostCount]
  · refine hcosts cost ?_
    rw [← hbuilt.costs_eq]
    exact Array.mem_toList_iff.mpr hcost

/-- **Instances and their records.** An instance comes back from its record under any name, in all
of its parts. An object whose five known fields are in order is read as an instance exactly when
one can be built from what they hold: then both relations are the ones that are built, so that the
second is the inverse of the first, and otherwise the reason is the one for which the data are
refused. Nothing that an object says about the second relation changes the result. -/
theorem record_roundTrip :
    (∀ elementCount subsetCount costs rows built,
      build elementCount subsetCount costs rows = .ok built →
      elementCount < 2 ^ 64 → subsetCount < 2 ^ 64 → (∀ cost ∈ costs, cost < 2 ^ 64) →
      ∀ name, readJson (Json.compactText (built.named name).toJson) = .ok (built.named name) ∧
        ∀ text, Json.ofText? text = some ((built.named name).toJson, true) →
          readJson text = .ok (built.named name)) ∧
    (∀ text fields data, Json.ofText? text = some (.object fields, true) →
      IsRecordOf fields data →
      ((∃ inst, readJson text = .ok inst) ↔
        ∃ built, build data.elementCount data.subsetCount data.costs data.rows = .ok built) ∧
      (∀ inst, readJson text = .ok inst →
        inst.name = data.name ∧ (inst.named "").IsBuiltFrom data.costs data.rows ∧
        build data.elementCount data.subsetCount data.costs data.rows = .ok (inst.named "")) ∧
      ∀ why, build data.elementCount data.subsetCount data.costs data.rows =
        .error (.invalid why) → readJson text = .error (.json (some why))) ∧
    ∀ text text' fields fields' whole, Json.ofText? text = some (.object fields, whole) →
      Json.ofText? text' = some (.object fields', whole) →
      Json.without fields' "members" = Json.without fields "members" →
      readJson text' = readJson text := by
  refine ⟨?_, ?_, ?_⟩
  · intro elementCount subsetCount costs rows built hbuild helements hsubsets hcosts name
    have hfits := fitsWords_named hbuild helements hsubsets hcosts name
    exact ⟨readJson_of_toJson hfits (Json.ofText?_compactText (writable_toJson _)),
      fun text => readJson_of_toJson hfits⟩
  · intro text fields data htext hrecord
    refine ⟨⟨?_, ?_⟩, ?_, fun why => readJson_of_refused htext hrecord⟩
    · rintro ⟨inst, hread⟩
      obtain ⟨built, hbuild, -⟩ := (readJson_eq_ok_iff htext hrecord).mp hread
      exact ⟨built, hbuild⟩
    · rintro ⟨built, hbuild⟩
      exact ⟨_, readJson_of_build htext hrecord hbuild⟩
    · intro inst hread
      obtain ⟨built, hbuild, rfl⟩ := (readJson_eq_ok_iff htext hrecord).mp hread
      obtain ⟨-, -, -, hbuilt⟩ := build_eq_ok hbuild
      have hsame : (built.named data.name).named "" = built :=
        eq_of_data hbuilt.name_eq.symm rfl rfl
      rw [hsame]
      exact ⟨rfl, hbuilt, hbuild⟩
  · intro text text' fields fields' whole htext htext'
    exact readJson_of_without (by decide) htext htext'

/-- A name with characters that are escaped, and two records without a name, in which the second
relation is not a relation or missing. -/
theorem record_roundTrip_of_escaped :
    ∃ built, build 2 2 [3, 4] [[1, 0, 1], [1]] = .ok built ∧
      readJson (Json.compactText (built.named "\"α\"\n").toJson) = .ok (built.named "\"α\"\n") ∧
      readJson ("\x7b\"costs\":[3,4],\"coverage\":[[1,0,1],[1]]," ++
        "\"element_count\":2,\"subset_count\":2\x7d") = .ok built ∧
      readJson ("\x7b\"members\":\"none\",\"costs\":[3,4],\"coverage\":[[1,0,1],[1]]," ++
        "\"element_count\":2,\"subset_count\":2\x7d") = .ok built := by
  obtain ⟨hroundTrip, hrecords, hmembers⟩ := record_roundTrip
  obtain ⟨built, hbuild, hbuilt⟩ : ∃ built, build 2 2 [3, 4] [[1, 0, 1], [1]] = .ok built ∧
      built.IsBuiltFrom [3, 4] [[1, 0, 1], [1]] := build_of_known rfl rfl (by decide)
  have hwords : ∀ row ∈ [[1, 0, 1], [1]], ∀ s ∈ row, s < wordBound := by decide
  let fields : List (String × Json) := [("costs", .ofNats [3, 4]),
    ("coverage", .array ([[1, 0, 1], [1]].map Json.ofNats)), ("element_count", .ofNat 2),
    ("subset_count", .ofNat 2)]
  have hrecord : IsRecordOf (fields.map (Prod.map some id))
      ⟨"", 2, 2, [3, 4], [[1, 0, 1], [1]]⟩ :=
    ⟨by decide, Or.inr ⟨rfl, rfl⟩, ⟨_, rfl, Json.isNatural_ofNat (by decide)⟩,
      ⟨_, rfl, Json.isNatural_ofNat (by decide)⟩, ⟨_, rfl, Json.isListOf_ofNats (by decide)⟩,
      ⟨_, rfl, Json.isListOf_map fun row hrow => Json.isListOf_ofNats (hwords row hrow)⟩⟩
  have hwritable : ∀ f ∈ fields, Json.Writable f.2 := by
    simp only [fields, List.forall_mem_cons]
    exact ⟨Json.writable_ofNats _, Json.writable_map fun row _ => Json.writable_ofNats row,
      Json.writable_ofNat 2, Json.writable_ofNat 2, List.forall_mem_nil _⟩
  have hwritable' : ∀ f ∈ ("members", Json.ofString "none") :: fields, Json.Writable f.2 :=
    List.forall_mem_cons.mpr ⟨Json.writable_ofString "none", hwritable⟩
  have htext := Json.ofText?_compactText (.object hwritable)
  have htext' := Json.ofText?_compactText (.object hwritable')
  have hprint : Json.compactText (.ofFields fields) =
      "\x7b\"costs\":[3,4],\"coverage\":[[1,0,1],[1]]," ++
        "\"element_count\":2,\"subset_count\":2\x7d" := by decide
  have hprint' : Json.compactText (.ofFields (("members", .ofString "none") :: fields)) =
      "\x7b\"members\":\"none\",\"costs\":[3,4],\"coverage\":[[1,0,1],[1]]," ++
        "\"element_count\":2,\"subset_count\":2\x7d" := by decide
  obtain ⟨hiff, hread, -⟩ := hrecords _ _ _ htext hrecord
  obtain ⟨inst, hinst⟩ := hiff.mpr ⟨built, hbuild⟩
  have hsame : inst = built := by
    obtain ⟨hname, -, hagain⟩ := hread inst hinst
    rw [hbuild] at hagain
    cases hagain
    exact eq_of_data hname rfl rfl
  subst hsame
  have hinst' := (hmembers _ _ _ _ true htext htext' (by simp [Json.without])).trans hinst
  rw [hprint] at hinst
  rw [hprint'] at hinst'
  exact ⟨inst, hbuild, (hroundTrip 2 2 [3, 4] [[1, 0, 1], [1]] inst hbuild (by decide) (by decide)
    (by decide) "\"α\"\n").1, hinst, hinst'⟩

end SetCover.Instance
