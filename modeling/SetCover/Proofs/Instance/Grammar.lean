import SetCover.Proofs.Instance.Build
import SetCover.Proofs.Instance.Reading
import SetCover.Proofs.Text.Layout

/-!
# The grammar of instance texts

A text is accepted exactly when its tokens start with the numerals of some counts, costs and lists
of ids, where every list comes after its length and ids count from one; the instance is then the
one that is built from these parts. Tokens have to be fewer than `2 ^ 58`, so that the rows of any
lists that they spell fit into the addresses of 63 bits.

* `Describes`: tokens are the numerals of these parts.
* `whole_of_describes`, `describes_of_whole`: the two directions, for tokens.
* `read_of_describes`, `describes_of_read`: the two directions, for texts.
* `read_of_numerals`: the numerals of an instance, laid out in any way, are read as that instance.
-/

namespace SetCover.Instance

open Text (IsNumeral LaidOut words)

variable {elementCount subsetCount : Nat} {costs : List Nat} {lists : List (List Nat)}
  {used rest : List String}

/-- The tokens are numerals of the two counts, of the costs, and for each element of the length of
its list and of the ids in it, which are those of subsets counted from one. -/
structure Describes (tokens : List String) (elementCount subsetCount : Nat) (costs : List Nat)
    (lists : List (List Nat)) : Prop where
  costs_length : costs.length = subsetCount
  lists_length : lists.length = elementCount
  ids_known : ∀ ids ∈ lists, ∀ id ∈ ids, 1 ≤ id ∧ id ≤ subsetCount
  numerals : List.Forall₂ IsNumeral tokens
    (elementCount :: subsetCount :: (costs ++ lists.flatMap fun ids => ids.length :: ids))

/-- The lists with ids that count from zero. -/
def lowered (lists : List (List Nat)) : List (List Nat) := lists.map fun ids => ids.map (· - 1)

/-- The lists with ids that count from one. -/
def raised (rows : List (List Nat)) : List (List Nat) := rows.map fun row => row.map (· + 1)

theorem lowered_raised (rows : List (List Nat)) : lowered (raised rows) = rows := by
  simp [lowered, raised, Function.comp_def]

theorem flatMap_raised (rows : List (List Nat)) :
    ((raised rows).flatMap fun ids => ids.length :: ids) = rows.flatMap Reading.rowNumbers := by
  rw [raised, List.flatMap_map]
  refine List.flatMap_congr fun row _ => ?_
  rw [Reading.rowNumbers, List.length_map]

theorem raised_lowered (h : ∀ ids ∈ lists, ∀ id ∈ ids, 1 ≤ id ∧ id ≤ subsetCount) :
    raised (lowered lists) = lists := by
  have hids : ∀ ids ∈ lists, (ids.map (· - 1)).map (· + 1) = ids := by
    intro ids hids
    rw [List.map_map]
    refine (List.map_congr_left fun id hid => ?_).trans (List.map_id ids)
    have hpos := (h ids hids id hid).1
    show id - 1 + 1 = id
    omega
  rw [raised, lowered, List.map_map]
  exact (List.map_congr_left hids).trans (List.map_id lists)

/-! ## Tokens -/

/-- The parts of an instance with rows that count from zero are described by their numbers. -/
theorem describes_raised_iff {rows : List (List Nat)} {tokens : List String} :
    Describes tokens elementCount subsetCount costs (raised rows) ↔
      costs.length = subsetCount ∧ rows.length = elementCount ∧
        (∀ row ∈ rows, ∀ s ∈ row, s < subsetCount) ∧
        List.Forall₂ IsNumeral tokens
          (Reading.wholeNumbers elementCount subsetCount costs rows) := by
  have hlength : (raised rows).length = rows.length := List.length_map ..
  have hknown : (∀ ids ∈ raised rows, ∀ id ∈ ids, 1 ≤ id ∧ id ≤ subsetCount) ↔
      ∀ row ∈ rows, ∀ s ∈ row, s < subsetCount := by
    simp [raised, Nat.succ_le_iff]
  constructor
  · rintro ⟨hcosts, hlists, hids, hnumerals⟩
    rw [flatMap_raised] at hnumerals
    exact ⟨hcosts, hlength ▸ hlists, hknown.mp hids, hnumerals⟩
  · rintro ⟨hcosts, hrows, hids, hnumerals⟩
    refine ⟨hcosts, hlength.trans hrows, hknown.mpr hids, ?_⟩
    rw [flatMap_raised]
    exact hnumerals

theorem whole_of_describes (h : Describes used elementCount subsetCount costs lists)
    (hfew : used.length < 2 ^ 58) (position : Nat) :
    Reading.whole.run ⟨position, used ++ rest⟩ =
      .ok ((elementCount, subsetCount, costs, lowered lists),
        ⟨position + used.length, rest⟩) := by
  rw [← raised_lowered h.ids_known, describes_raised_iff] at h
  obtain ⟨hcosts, hlists, hknown, hnumerals⟩ := h
  -- every declared count is the length of something that is spelled out
  obtain ⟨hsubsets, helements, hlengths⟩ :=
    Reading.lengths_lt_wholeNumbers elementCount subsetCount costs (lowered lists)
  rw [← hnumerals.length_eq] at hsubsets helements hlengths
  refine (Reading.reads_whole ..).mpr ⟨used, _, rfl, rfl, hnumerals, ⟨hcosts, hlists⟩,
    ⟨by omega, by omega⟩, fun row hrow => ⟨?_, hknown row hrow⟩, rfl⟩
  have hlt := hlengths row hrow
  omega

theorem describes_of_whole {position : Nat} {tokens : List String} {rows : List (List Nat)}
    {cursor : Cursor}
    (h : Reading.whole.run ⟨position, tokens⟩ =
      .ok ((elementCount, subsetCount, costs, rows), cursor)) :
    ∃ used, tokens = used ++ cursor.rest ∧
      Describes used elementCount subsetCount costs (raised rows) := by
  obtain ⟨used, _, htokens, -, hnumerals, ⟨hcosts, hrows⟩, -, hknown, rfl⟩ :=
    (Reading.reads_whole ..).mp h
  refine ⟨used, htokens, describes_raised_iff.mpr ⟨hcosts, hrows, fun row hrow => ?_, hnumerals⟩⟩
  exact (hknown row hrow).2

/-! ## Texts -/

theorem read_eq (text : String) :
    read text =
      match Reading.whole.run ⟨0, words text⟩ with
      | .ok ((elementCount, subsetCount, costs, rows), _) =>
          build elementCount subsetCount costs rows
      | .error fault => .error fault := by
  unfold read
  cases Reading.whole.run ⟨0, words text⟩ with
  | error fault => rfl
  | ok result => rfl

theorem read_of_describes {text : String} (hwords : words text = used ++ rest)
    (h : Describes used elementCount subsetCount costs lists) (hfew : used.length < 2 ^ 58) :
    read text = build elementCount subsetCount costs (lowered lists) := by
  rw [read_eq, hwords, whole_of_describes h hfew]

theorem describes_of_read {text : String} {inst : Instance} (h : read text = .ok inst) :
    ∃ elementCount subsetCount costs lists used rest, words text = used ++ rest ∧
      Describes used elementCount subsetCount costs lists ∧
      build elementCount subsetCount costs (lowered lists) = .ok inst := by
  rw [read_eq] at h
  split at h
  · next elementCount subsetCount costs rows cursor hrun =>
      obtain ⟨used, hwords, hused⟩ := describes_of_whole hrun
      refine ⟨elementCount, subsetCount, costs, raised rows, used, _, hwords, hused, ?_⟩
      rw [lowered_raised]
      exact h
  · cases h

theorem exists_build_of_describes (h : Describes used elementCount subsetCount costs lists) :
    ∃ inst, build elementCount subsetCount costs (lowered lists) = .ok inst := by
  have hrows := h
  rw [← raised_lowered h.ids_known, describes_raised_iff] at hrows
  obtain ⟨hcosts, hlists, hknown, -⟩ := hrows
  obtain ⟨inst, hok, -⟩ := build_of_known hcosts hlists hknown
  exact ⟨inst, hok⟩

theorem read_congr {text text' : String} (h : LaidOut (words text) text'.toList) :
    read text' = read text := by
  rw [read_eq, read_eq, Text.words_eq_iff.mpr h]

/-! ## The texts of an instance -/

/-- The rows of an instance, each as the ascending list of its ids. -/
def rows (inst : Instance) : List (List Nat) := inst.holders.toList.map IdSet.toList

/-- The numbers that a text of the instance consists of. -/
def numbers (inst : Instance) : List Nat :=
  Reading.wholeNumbers inst.elementCount inst.subsetCount inst.costs.toList inst.rows

theorem mem_rows_lt {inst : Instance} : ∀ row ∈ inst.rows, ∀ s ∈ row, s < inst.subsetCount := by
  intro row hrow s hs
  obtain ⟨set, hset, rfl⟩ := List.mem_map.mp hrow
  exact inst.holders_lt set (Array.mem_toList_iff.mp hset) s hs

/-- An instance is built from its own parts, apart from its name. -/
theorem build_rows (inst : Instance) :
    build inst.elementCount inst.subsetCount inst.costs.toList inst.rows =
      .ok (inst.named "") := by
  have hsets : inst.rows.map IdSet.ofList = inst.holders.toList := by
    rw [rows, List.map_map]
    exact (List.map_congr_left fun set _ => set.ofList_toList).trans (List.map_id _)
  have hrows : inst.rows.length = inst.elementCount := by simp [rows, elementCount]
  have hnone : firstStray? inst.subsetCount (inst.rows.map IdSet.ofList) = none := by
    rw [hsets, firstStray?_eq_none_iff]
    intro set hset
    exact inst.holders_lt set (Array.mem_toList_iff.mp hset)
  have hcount : inst.costs.toList.length = inst.subsetCount := Array.length_toList
  obtain ⟨inst', hok, hname, hcosts, hholders⟩ := build_of_no_stray hcount hrows hnone
  have hsame : inst' = inst.named "" := by
    refine eq_of_data hname hcosts ?_
    rw [hholders, hsets]
    rfl
  rw [hok, hsame]

theorem describes_numbers (inst : Instance) (h : List.Forall₂ IsNumeral used inst.numbers) :
    Describes used inst.elementCount inst.subsetCount inst.costs.toList (raised inst.rows) :=
  describes_raised_iff.mpr ⟨rfl, by simp [rows, elementCount], mem_rows_lt, h⟩

/-- The numerals of an instance are read as that instance, however they are laid out and whatever
comes after them. -/
theorem read_of_numerals {text : String} (inst : Instance)
    (h : List.Forall₂ IsNumeral used inst.numbers) (hlaid : LaidOut (used ++ rest) text.toList)
    (hfew : used.length < 2 ^ 58) : read text = .ok (inst.named "") := by
  rw [read_of_describes (Text.words_eq_iff.mpr hlaid) (describes_numbers inst h) hfew,
    lowered_raised, build_rows]

/-- The decimal digits of the numbers of an instance are numerals, as long as there are fewer than
`2 ^ 58` and the costs have 64 bits. -/
theorem isNumeral_digits (inst : Instance) (hcosts : ∀ cost ∈ inst.costs, cost < 2 ^ 64)
    (hfew : inst.numbers.length < 2 ^ 58) :
    List.Forall₂ IsNumeral (inst.numbers.map toString) inst.numbers := by
  obtain ⟨hsubsets, helements, hlengths⟩ := Reading.lengths_lt_wholeNumbers inst.elementCount
    inst.subsetCount inst.costs.toList inst.rows
  rw [← numbers] at hsubsets helements hlengths
  have hcount : inst.costs.toList.length = inst.subsetCount := Array.length_toList
  have hrows : inst.rows.length = inst.elementCount := by simp [rows, elementCount]
  refine List.forall₂_map_left_iff.mpr (List.forall₂_same.mpr fun n hn => ?_)
  refine Text.isNumeral_toString ?_
  rw [numbers, Reading.wholeNumbers] at hn
  rcases List.mem_cons.mp hn with rfl | hn
  · omega
  rcases List.mem_cons.mp hn with rfl | hn
  · omega
  rcases List.mem_append.mp hn with hn | hn
  · exact hcosts n (Array.mem_toList_iff.mp hn)
  obtain ⟨row, hrow, hn⟩ := List.mem_flatMap.mp hn
  rcases List.mem_cons.mp hn with rfl | hn
  · have hlt := hlengths row hrow
    omega
  obtain ⟨s, hs, rfl⟩ := List.mem_map.mp hn
  have hlt := mem_rows_lt row hrow s hs
  omega

/-- **The grammar of instance texts.** The words of a text are the tokens that it is a layout of.
It is read as an instance exactly when they start with the numerals of some parts, and that is the
instance built from these parts, which are never refused. Neither the layout nor the tokens after
the last list change the result. The numerals of any instance, its decimal digits among them, are
read as that instance. -/
theorem read_grammar (text : String) (hfew : (words text).length < 2 ^ 58) :
    (∀ tokens, words text = tokens ↔ LaidOut tokens text.toList) ∧
    (∀ inst, read text = .ok inst ↔
      ∃ elementCount subsetCount costs lists used rest, words text = used ++ rest ∧
        Describes used elementCount subsetCount costs lists ∧
        build elementCount subsetCount costs (lowered lists) = .ok inst) ∧
    (∀ elementCount subsetCount costs lists used rest, words text = used ++ rest →
      Describes used elementCount subsetCount costs lists →
      (∃ inst, build elementCount subsetCount costs (lowered lists) = .ok inst ∧
        read text = .ok inst) ∧
      ∀ rest' text', LaidOut (used ++ rest') text'.toList → read text' = read text) ∧
    (∀ text', LaidOut (words text) text'.toList → read text' = read text) ∧
    (∀ (inst : Instance) used rest, List.Forall₂ IsNumeral used inst.numbers →
      LaidOut (used ++ rest) text.toList → read text = .ok (inst.named "")) ∧
    (∀ (inst : Instance) rest, (∀ cost ∈ inst.costs, cost < 2 ^ 64) →
      LaidOut (inst.numbers.map toString ++ rest) text.toList →
      read text = .ok (inst.named "")) := by
  have hstart : ∀ used rest : List String, words text = used ++ rest → used.length < 2 ^ 58 := by
    intro used rest hwords
    rw [hwords, List.length_append] at hfew
    omega
  refine ⟨fun tokens => Text.words_eq_iff, fun inst => ⟨describes_of_read, ?_⟩, ?_,
    fun text' => read_congr, ?_, ?_⟩
  · rintro ⟨elementCount, subsetCount, costs, lists, used, rest, hwords, hused, hbuild⟩
    rw [read_of_describes hwords hused (hstart used rest hwords), hbuild]
  · intro elementCount subsetCount costs lists used rest hwords hused
    have hread := read_of_describes hwords hused (hstart used rest hwords)
    constructor
    · obtain ⟨inst, hbuild⟩ := exists_build_of_describes hused
      exact ⟨inst, hbuild, hread.trans hbuild⟩
    · intro rest' text' hlaid
      rw [hread]
      exact read_of_describes (Text.words_eq_iff.mpr hlaid) hused (hstart used rest hwords)
  · intro inst used rest hused hlaid
    exact read_of_numerals inst hused hlaid (hstart used rest (Text.words_eq_iff.mpr hlaid))
  · intro inst rest hcosts hlaid
    have hshort := hstart _ rest (Text.words_eq_iff.mpr hlaid)
    refine read_of_numerals inst (isNumeral_digits inst hcosts ?_) hlaid hshort
    rwa [List.length_map] at hshort

/-- A plus sign, a leading zero, blanks of all kinds and a token after the last list. -/
theorem read_grammar_of_ragged :
    (words " 2 3\n5 +07 1\t2 1 3  1 2 end").length < 2 ^ 58 ∧
    ∃ inst, build 2 3 [5, 7, 1] [[0, 2], [1]] = .ok inst ∧
      read " 2 3\n5 +07 1\t2 1 3  1 2 end" = .ok inst ∧
      read "2\n3\n5\n+07\n1\n2\n1\n3\n1\n2\n" = .ok inst := by
  have hfew : (words " 2 3\n5 +07 1\t2 1 3  1 2 end").length < 2 ^ 58 := by decide
  have hused : Describes ["2", "3", "5", "+07", "1", "2", "1", "3", "1", "2"] 2 3 [5, 7, 1]
      [[1, 3], [2]] := by
    refine ⟨rfl, rfl, by decide, ?_⟩
    have hnumerals : List.Forall₂ (fun token n => Text.numeral? token = some n)
        ["2", "3", "5", "+07", "1", "2", "1", "3", "1", "2"] [2, 3, 5, 7, 1, 2, 1, 3, 1, 2] := by
      decide
    exact hnumerals.imp fun _ _ => Text.numeral?_eq_some_iff.mp
  obtain ⟨-, -, haccepted, -⟩ := read_grammar " 2 3\n5 +07 1\t2 1 3  1 2 end" hfew
  obtain ⟨⟨inst, hbuild, hread⟩, hrest⟩ := haccepted 2 3 _ _ _ ["end"] (by decide) hused
  have hlaid : LaidOut (["2", "3", "5", "+07", "1", "2", "1", "3", "1", "2"] ++ [])
      "2\n3\n5\n+07\n1\n2\n1\n3\n1\n2\n".toList := Text.words_eq_iff.mp (by decide)
  exact ⟨hfew, inst, hbuild, hread, (hrest [] _ hlaid).trans hread⟩

end SetCover.Instance
