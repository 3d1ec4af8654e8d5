import Mathlib.Data.List.Nodup
import SetCover.Proofs.Greedy.Order
import SetCover.Proofs.Greedy.Totality

/-!
# The draws of a construction

A construction is told by the subsets it draws. They are listed last first, as a journal is, so that
what a draw finds is told by the rest of the list. A draw gains what no earlier one holds. The
subsets that gain something are the ones that are kept, and each of them has something that those
before it do not have.

* `Instance.uncovered`, `Instance.news`: what draws leave to cover, and what one more gains.
* `Instance.gainful`, `Instance.EachNew`: the draws that gain, and lists where every draw does.
* `Instance.countdown_eq`: counting down by what is gained gives the number of elements left.
* `Greedy.History`: the draws of a construction, each from its shortlist.
* `Greedy.ends_construct_history`, `construct_history`: every construction has a history.
-/

namespace SetCover

open Search

variable {inst : Instance} {drawn order : List Nat} {s e : Nat}

namespace Instance

/-! ## What draws gain -/

/-- The elements that none of the drawn subsets holds, smallest first. -/
def uncovered (inst : Instance) (drawn : List Nat) : List Nat :=
  (List.range inst.elementCount).filter fun e => ∀ s ∈ drawn, e ∉ inst.contentsOf s

/-- The elements of a subset that none of the drawn ones holds, smallest first. -/
def news (inst : Instance) (drawn : List Nat) (s : Nat) : List Nat :=
  (inst.contentsOf s).toList.filter fun e => ∀ t ∈ drawn, e ∉ inst.contentsOf t

/-- The draws that gain something, in their order. -/
def gainful (inst : Instance) : List Nat → List Nat
  | [] => []
  | s :: earlier =>
      if inst.news earlier s = [] then inst.gainful earlier else s :: inst.gainful earlier

/-- Every draw gains something. -/
def EachNew (inst : Instance) : List Nat → Prop
  | [] => True
  | s :: earlier => inst.news earlier s ≠ [] ∧ inst.EachNew earlier

/-- The number of elements to cover, counted down by what each draw gains; `none` where it would
have to go below zero. -/
def countdown (inst : Instance) : List Nat → Option Nat
  | [] => some inst.elementCount
  | s :: earlier => (inst.countdown earlier).bind fun left =>
      if (inst.news earlier s).length ≤ left then some (left - (inst.news earlier s).length)
      else none

/-- What is written down for the draws, last entry first. -/
def entries (inst : Instance) : List Nat → List Event
  | [] => []
  | s :: earlier =>
      (if inst.news earlier s = [] then .subsetPassedOver s
        else .subsetPicked s (inst.news earlier s).length (inst.uncovered (s :: earlier)).length) ::
        inst.entries earlier

theorem mem_uncovered :
    e ∈ inst.uncovered drawn ↔ e < inst.elementCount ∧ ∀ s ∈ drawn, e ∉ inst.contentsOf s := by
  simp [uncovered]

theorem mem_news :
    e ∈ inst.news drawn s ↔ e ∈ inst.contentsOf s ∧ ∀ t ∈ drawn, e ∉ inst.contentsOf t := by
  simp [news, IdSet.mem_def]

theorem uncovered_nil : inst.uncovered [] = List.range inst.elementCount := by
  simp [uncovered]

theorem uncovered_cons :
    inst.uncovered (s :: drawn) = Greedy.leftAfter inst (inst.uncovered drawn) s := by
  rw [uncovered, uncovered, Greedy.leftAfter, List.filter_filter]
  refine List.filter_congr fun e _ => ?_
  simp [IdSet.contains_eq_decide]

/-- What a draw gains is what it holds of the elements that are left. -/
theorem filter_uncovered :
    (inst.uncovered drawn).filter (inst.contentsOf s).contains = inst.news drawn s := by
  refine IdSet.eq_of_mem_iff ((List.pairwise_lt_range.filter _).filter _)
    ((inst.contentsOf s).ascending.filter _) fun e => ?_
  rw [List.mem_filter, IdSet.contains_iff, mem_uncovered, mem_news]
  constructor
  · rintro ⟨⟨_, hnew⟩, he⟩
    exact ⟨he, hnew⟩
  · rintro ⟨he, hnew⟩
    exact ⟨⟨lt_of_mem_holdersOf (mem_contentsOf.mp he), hnew⟩, he⟩

/-- What a draw gains it takes off the elements that are left. -/
theorem length_uncovered_cons (inst : Instance) (drawn : List Nat) (s : Nat) :
    (inst.news drawn s).length + (inst.uncovered (s :: drawn)).length =
      (inst.uncovered drawn).length := by
  rw [← filter_uncovered, uncovered_cons, Greedy.leftAfter, ← List.length_eq_length_filter_add]

theorem exists_left_iff :
    (∃ e ∈ inst.uncovered drawn, s ∈ inst.holdersOf e) ↔ inst.news drawn s ≠ [] := by
  rw [← filter_uncovered, Ne, List.filter_eq_nil_iff]
  simp [mem_contentsOf]

theorem not_mem_of_news (h : inst.news drawn s ≠ []) : s ∉ drawn := by
  obtain ⟨e, he⟩ := List.exists_mem_of_ne_nil _ h
  obtain ⟨he, hnew⟩ := mem_news.mp he
  exact fun hs => hnew s hs he

theorem lt_of_news (h : inst.news drawn s ≠ []) : s < inst.subsetCount := by
  obtain ⟨e, he⟩ := List.exists_mem_of_ne_nil _ h
  exact mem_holdersOf_lt (mem_contentsOf.mp (mem_news.mp he).1)

/-- The count never has to go below zero, and gives the number of elements left. -/
theorem countdown_eq : inst.countdown drawn = some (inst.uncovered drawn).length := by
  induction drawn with
  | nil => rw [countdown, uncovered_nil, List.length_range]
  | cons s earlier ih =>
      have hcount := length_uncovered_cons inst earlier s
      rw [countdown, ih, Option.bind_some, if_pos (by omega), Option.some.injEq]
      omega

/-! ## Draws that gain something -/

theorem gainful_sublist : (inst.gainful drawn).Sublist drawn := by
  induction drawn with
  | nil => exact .slnil
  | cons s earlier ih =>
      rw [gainful]
      split
      · exact ih.cons _
      · exact ih.cons_cons _

/-- Whatever the draws hold, those that gain something hold. -/
theorem exists_gainful_iff (inst : Instance) (drawn : List Nat) (e : Nat) :
    (∃ t ∈ inst.gainful drawn, e ∈ inst.contentsOf t) ↔ ∃ t ∈ drawn, e ∈ inst.contentsOf t := by
  constructor
  · rintro ⟨t, ht, he⟩
    exact ⟨t, gainful_sublist.subset ht, he⟩
  · intro h
    induction drawn with
    | nil => simp at h
    | cons s earlier ih =>
        rw [gainful]
        by_cases hearlier : ∃ t ∈ earlier, e ∈ inst.contentsOf t
        · obtain ⟨t, ht, he⟩ := ih hearlier
          split
          · exact ⟨t, ht, he⟩
          · exact ⟨t, List.mem_cons_of_mem _ ht, he⟩
        · -- the last draw holds it first
          obtain ⟨t, ht, he⟩ := h
          rcases List.mem_cons.mp ht with rfl | ht
          · have hnews : e ∈ inst.news earlier t :=
              mem_news.mpr ⟨he, fun t' ht' he' => hearlier ⟨t', ht', he'⟩⟩
            rw [if_neg (List.ne_nil_of_mem hnews)]
            exact ⟨t, List.mem_cons_self, he⟩
          · exact absurd ⟨t, ht, he⟩ hearlier

theorem uncovered_gainful : inst.uncovered (inst.gainful drawn) = inst.uncovered drawn := by
  refine List.filter_congr fun e _ => ?_
  have hiff := exists_gainful_iff inst drawn e
  simpa using not_congr hiff

theorem news_gainful : inst.news (inst.gainful drawn) s = inst.news drawn s := by
  refine List.filter_congr fun e _ => ?_
  have hiff := exists_gainful_iff inst drawn e
  simpa using not_congr hiff

theorem eachNew_gainful : inst.EachNew (inst.gainful drawn) := by
  induction drawn with
  | nil => trivial
  | cons s earlier ih =>
      rw [gainful]
      split
      · exact ih
      · next hnews => exact ⟨by rwa [news_gainful], ih⟩

namespace EachNew

theorem gainful_eq (h : inst.EachNew order) : inst.gainful order = order := by
  induction order with
  | nil => rfl
  | cons s earlier ih => rw [gainful, if_neg h.1, ih h.2]

theorem right {later : List Nat} (h : inst.EachNew (later ++ order)) : inst.EachNew order := by
  induction later with
  | nil => exact h
  | cons s later ih => exact ih h.2

theorem lt (h : inst.EachNew order) (hs : s ∈ order) : s < inst.subsetCount := by
  induction order with
  | nil => exact absurd hs List.not_mem_nil
  | cons t earlier ih =>
      rcases List.mem_cons.mp hs with rfl | hs
      · exact lt_of_news h.1
      · exact ih h.2 hs

/-- Every draw takes an element off those that are left. -/
theorem length_le (h : inst.EachNew order) :
    order.length + (inst.uncovered order).length ≤ inst.elementCount := by
  induction order with
  | nil => rw [uncovered_nil, List.length_range, List.length_nil, Nat.zero_add]
  | cons s earlier ih =>
      have hle := ih h.2
      have hcount := length_uncovered_cons inst earlier s
      have hgains := List.length_pos_iff.mpr h.1
      rw [List.length_cons]
      omega

end EachNew

theorem covers_ofList_iff : inst.covers (.ofList order) = true ↔ inst.uncovered order = [] := by
  rw [covers_iff, List.eq_nil_iff_forall_not_mem]
  refine forall_congr' fun e => ?_
  rw [mem_uncovered, not_and]
  refine forall_congr' fun _ => ?_
  simp [Holds, ← mem_contentsOf, and_comm]

end Instance

namespace Greedy

variable {prices : List Int} {size noise : Nat} {pool : List Offer} {o : Offer}
  {E : Fault → Session → Prop} {σ : Session}

/-! ## Shortlists -/

/-- All subsets with their prices, cheapest first, whatever their price. -/
def ranked (prices : List Int) : List Offer :=
  (prices.zipIdx.map fun p => (⟨p.1, p.2⟩ : Offer)).mergeSort Offer.le

/-- The `size` cheapest subsets of those that are not drawn yet; all of them, if there are no more
than that. -/
def candidates (size : Nat) (prices : List Int) (drawn : List Nat) : List Nat :=
  (((ranked prices).filter fun o => o.id ∉ drawn).take size).map (·.id)

/-- What is on offer after some draws. -/
def onOffer (prices : List Int) (drawn : List Nat) : List Offer :=
  (offers prices).filter fun o => o.id ∉ drawn

theorem onOffer_nil : onOffer prices [] = offers prices := by
  simp [onOffer]

theorem mem_onOffer : o ∈ onOffer prices drawn ↔ o ∈ offers prices ∧ o.id ∉ drawn := by
  simp [onOffer]

theorem erase_onOffer (ho : o ∈ onOffer prices drawn) :
    (onOffer prices drawn).erase o = onOffer prices (o.id :: drawn) := by
  have hids := nodup_ids_offers prices
  have hnodup : (onOffer prices drawn).Nodup := (List.Nodup.of_map _ hids).filter _
  rw [hnodup.erase_eq_filter, onOffer, onOffer, List.filter_filter]
  refine List.filter_congr fun a ha => ?_
  have hsame : a = o ↔ a.id = o.id :=
    ⟨congrArg _, List.inj_on_of_nodup_map hids ha (mem_onOffer.mp ho).1⟩
  simp [bne, BEq.beq, hsame]

/-- Subsets that are marked as taken from the start come last. -/
theorem ranked_eq (hprices : ∀ p ∈ prices, p ≤ takenMark) :
    ∃ marked, ranked prices = offers prices ++ marked := by
  generalize hall : prices.zipIdx.map (fun p => (⟨p.1, p.2⟩ : Offer)) = all
  have hle : ∀ o ∈ all, o.price ≤ takenMark := by
    subst hall
    simp only [List.mem_map]
    rintro _ ⟨p, hp, rfl⟩
    exact hprices _ (List.fst_mem_of_mem_zipIdx hp)
  refine ⟨(all.filter fun o => !(o.price != takenMark)).mergeSort Offer.le, ?_⟩
  rw [ranked, offers, hall]
  refine List.Perm.eq_of_pairwise (fun _ _ _ _ => Offer.eq_of_le_of_le)
    (pairwise_le_mergeSort _) (List.pairwise_append.mpr
      ⟨pairwise_le_mergeSort _, pairwise_le_mergeSort _, fun o ho m hm => ?_⟩) ?_
  · -- the mark is above all other prices
    rw [List.mem_mergeSort, List.mem_filter] at ho hm
    have hbelow := hle o ho.1
    have hlow : o.price ≠ takenMark := by simpa using ho.2
    have hmark : m.price = takenMark := by simpa using hm.2
    rw [Offer.le_iff]
    omega
  · refine (List.mergeSort_perm _ _).trans ((List.filter_append_perm
      (·.price != takenMark) all).symm.trans ?_)
    exact ((List.mergeSort_perm _ _).append (List.mergeSort_perm _ _)).symm

/-- A shortlist has the cheapest subsets that are not drawn yet. -/
theorem mem_candidates (hprices : ∀ p ∈ prices, p ≤ takenMark)
    (ho : o ∈ shortlist size (onOffer prices drawn)) : o.id ∈ candidates size prices drawn := by
  obtain ⟨marked, hranked⟩ := ranked_eq hprices
  refine List.mem_map_of_mem ?_
  rw [hranked, List.filter_append, List.take_append]
  refine List.mem_append_left _ ?_
  unfold shortlist onOffer at ho
  split at ho
  · exact ho
  · next hfew => rwa [List.take_of_length_le (Nat.le_of_not_lt hfew), ← List.mem_mergeSort]

theorem of_mem_candidates (h : s ∈ candidates size prices drawn) :
    s < prices.length ∧ s ∉ drawn := by
  obtain ⟨o, ho, rfl⟩ := List.mem_map.mp h
  obtain ⟨ho, hnew⟩ := List.mem_filter.mp (List.mem_of_mem_take ho)
  obtain ⟨p, hp, rfl⟩ := List.mem_map.mp (List.mem_mergeSort.mp ho)
  exact ⟨List.snd_lt_of_mem_zipIdx hp, by simpa using hnew⟩

/-! ## Histories -/

/-- The draws of a construction, last first: while there is an element to cover, one of the
candidates is drawn. -/
inductive History (inst : Instance) (size : Nat) (prices : List Int) : List Nat → Prop
  | start : History inst size prices []
  | draw {drawn : List Nat} {s : Nat} : History inst size prices drawn →
      inst.uncovered drawn ≠ [] → s ∈ candidates size prices drawn →
      History inst size prices (s :: drawn)

namespace History

theorem lt (h : History inst size prices drawn) : ∀ s ∈ drawn, s < prices.length := by
  induction h with
  | start => simp
  | draw _ _ hs ih => exact List.forall_mem_cons.mpr ⟨(of_mem_candidates hs).1, ih⟩

theorem nodup (h : History inst size prices drawn) : drawn.Nodup := by
  induction h with
  | start => exact List.nodup_nil
  | draw _ _ hs ih => exact List.nodup_cons.mpr ⟨(of_mem_candidates hs).2, ih⟩

theorem length_le (h : History inst size prices drawn) : drawn.length ≤ prices.length := by
  have hsub := List.subperm_of_subset h.nodup fun s hs => List.mem_range.mpr (h.lt s hs)
  exact Nat.le_trans hsub.length_le (Nat.le_of_eq List.length_range)

end History

theorem keptAfter_uncovered :
    keptAfter inst (inst.uncovered drawn) (.ofList (inst.gainful drawn)) s =
      .ofList (inst.gainful (s :: drawn)) := by
  simp only [keptAfter, Instance.exists_left_iff, Instance.gainful, ite_not]
  split
  · rfl
  · rfl

theorem entryAfter_uncovered :
    entryAfter inst (inst.uncovered drawn) s :: inst.entries drawn = inst.entries (s :: drawn) := by
  have hcount := Instance.length_uncovered_cons inst drawn s
  simp only [entryAfter, Instance.exists_left_iff, Instance.entries, ite_not]
  rw [← Instance.uncovered_cons, Nat.sub_eq_of_eq_add hcount.symm]

/-- From a history, a construction goes on to a longer one. -/
theorem ends_grow_history (hsize : 0 < size) (hprices : ∀ p ∈ prices, p ≤ takenMark)
    {journal : List Event} (h : History inst size prices drawn)
    (hjournal : σ.journal = inst.entries drawn ++ journal) :
    Ends (grow inst size (onOffer prices drawn) (inst.uncovered drawn)
        (.ofList (inst.gainful drawn))) anyFault
      (fun ids σ' => ∃ draws, History inst size prices draws ∧ inst.uncovered draws = [] ∧
        ids = .ofList (inst.gainful draws) ∧ σ'.journal = inst.entries draws ++ journal) σ := by
  -- every step takes an offer out of the pool
  induction hn : (onOffer prices drawn).length using Nat.strongRecOn generalizing drawn σ with
  | ind n ih =>
      subst hn
      cases hleft : inst.uncovered drawn with
      | nil =>
          rw [grow]
          exact ends_pure ⟨drawn, h, hleft, rfl, hjournal⟩
      | cons first more =>
          refine ends_grow_noted hsize (fun _ => trivial) fun hpos o ho => ?_
          have hmem := mem_of_mem_shortlist ho
          have hshorter : (onOffer prices (o.id :: drawn)).length <
              (onOffer prices drawn).length := by
            rw [← erase_onOffer hmem, List.length_erase_of_mem hmem]
            exact Nat.sub_one_lt_of_lt (List.length_pos_of_mem hmem)
          rw [← hleft, ← Instance.uncovered_cons, keptAfter_uncovered, erase_onOffer hmem]
          refine ih _ hshorter (h.draw ?_ (mem_candidates hprices ho)) ?_ rfl
          · rw [hleft]
            exact List.cons_ne_nil _ _
          · rw [hjournal, ← List.cons_append, entryAfter_uncovered]

theorem IsPrice.le_takenMark {amount cost p : Int} (hp : IsPrice amount cost p)
    (hcost : cost < 2 ^ 63) (hrange : 0 < amount → cost + amount < 2 ^ 63) : p ≤ takenMark := by
  unfold takenMark
  rcases hp with ⟨_, rfl⟩ | ⟨hpos, _, hlt⟩
  · omega
  · have := hrange hpos
    omega

/-- No price is above the mark of taken subsets. -/
theorem le_takenMark_of_pricedBy (hprices : inst.PricedBy noise prices)
    (hrange : inst.NoiseInRange noise) : ∀ p ∈ prices, p ≤ takenMark := by
  intro p hp
  obtain ⟨s, hs⟩ := List.mem_iff_getElem?.mp hp
  obtain ⟨hlt, _⟩ := List.getElem?_eq_some_iff.mp hs
  rw [hprices.1] at hlt
  exact (hprices.2 s p hs).le_takenMark (signed_lt _) fun hpos => (hrange hpos s hlt).2

theorem ends_price_journal {amount cost : Int} :
    Ends (price amount cost) anyFault (fun _ σ' => σ'.journal = σ.journal) σ := by
  unfold price
  refine ends_ite (fun _ => ends_pure rfl) fun hsome => ends_ite (fun _ => ?_) fun _ => ?_
  · exact ends_below_bind (by omega) fun _ _ => ends_pure rfl
  · exact ends_throw trivial

/-- Every construction that succeeds has a history. -/
theorem ends_construct_history (hrange : inst.NoiseInRange noise) :
    Ends (construct inst size noise) anyFault (fun ids σ' => ∃ prices draws σ₁,
      (inst.costs.toList.mapM fun cost => price (signed noise) (signed cost)).run σ =
        .ok prices σ₁ ∧
      inst.PricedBy noise prices ∧ History inst size prices draws ∧ inst.uncovered draws = [] ∧
      ids = .ofList (inst.gainful draws) ∧ σ'.journal = inst.entries draws ++ σ.journal) σ := by
  unfold construct
  refine ends_ite (fun _ => ends_throw trivial) fun hsize => ?_
  have hsize : 0 < size := by omega
  refine ends_bind (R := fun _ σ₀ => σ = σ₀)
    (ends_ofExcept (fun _ _ => rfl) fun _ _ => trivial) ?_
  rintro _ _ rfl
  have hjournal := ends_mapM_keeps (fun σ₁ => σ₁.journal = σ.journal)
    inst.costs.toList (fun cost => price (signed noise) (signed cost)) rfl
    fun cost _ σ₁ hsame => ends_price_journal.weaken fun _ _ h => h.trans hsame
  refine ends_bind ((ends_prices hrange).also hjournal).with_run ?_
  rintro prices σ₁ ⟨⟨hprices, hjournal⟩, hrun⟩
  have hstart : History inst size prices [] := .start
  have hgrown := ends_grow_history hsize (le_takenMark_of_pricedBy hprices hrange) hstart
    (show σ₁.journal = inst.entries [] ++ σ.journal from hjournal)
  rw [onOffer_nil, Instance.uncovered_nil] at hgrown
  refine hgrown.weaken ?_
  rintro ids σ' ⟨draws, hhistory, hleft, hids, hjournal⟩
  exact ⟨prices, draws, σ₁, hrun, hprices, hhistory, hleft, hids, hjournal⟩

/-- **The draws of a construction.** Let no price leave its range. A construction that succeeds
gives a cover of known ids. First it sets the prices. Then it draws subsets, no subset twice, each
of them one of the cheapest that were not drawn before, until no element is left to cover. It keeps
exactly the subsets that gain something when they are drawn, so there are no more of them than
elements, and in the order of the draws each has an element that those before it do not have. It
writes down every draw, with what it gains and leaves. The count of the elements to cover never
falls short of what a draw gains, and is their number after every draw. -/
theorem construct_history (inst : Instance) (size noise : Nat) (hrange : inst.NoiseInRange noise)
    (ids : IdSet) (σ σ' : Session) (hrun : (construct inst size noise).run σ = .ok ids σ') :
    (inst.covers ids = true ∧ ∀ id ∈ ids, id < inst.subsetCount) ∧
      ∃ prices draws σ₁,
        ((inst.costs.toList.mapM fun cost => price (signed noise) (signed cost)).run σ =
            .ok prices σ₁ ∧
          inst.PricedBy noise prices) ∧
        (History inst size prices draws ∧ inst.uncovered draws = []) ∧
        (draws.Nodup ∧ draws.length ≤ inst.subsetCount) ∧
        (ids = .ofList (inst.gainful draws) ∧ inst.EachNew (inst.gainful draws) ∧
          ids.card ≤ inst.elementCount) ∧
        σ'.journal = inst.entries draws ++ σ.journal ∧
        ∀ earlier, earlier <:+ draws →
          inst.countdown earlier = some (inst.uncovered earlier).length := by
  obtain ⟨prices, draws, σ₁, hpriced, hprices, hhistory, hleft, rfl, hjournal⟩ :=
    (ends_construct_history hrange).of_run hrun
  have heach : inst.EachNew (inst.gainful draws) := Instance.eachNew_gainful
  have hcard : (IdSet.ofList (inst.gainful draws)).card ≤ inst.elementCount := by
    have hkept := IdSet.card_ofList_le (inst.gainful draws)
    have hgained := heach.length_le
    omega
  refine ⟨⟨?_, fun id hid => heach.lt (IdSet.mem_ofList.mp hid)⟩, prices, draws, σ₁,
    ⟨hpriced, hprices⟩, ⟨hhistory, hleft⟩, ⟨hhistory.nodup, ?_⟩, ⟨rfl, heach, hcard⟩, hjournal,
    fun _ _ => Instance.countdown_eq⟩
  · rw [Instance.covers_ofList_iff, Instance.uncovered_gainful, hleft]
  · rw [← hprices.1]
    exact hhistory.length_le

/-- With noise the cover may be any of several, but two elements are covered by two subsets. -/
theorem construct_history_of_noise :
    ∃ inst, Instance.build 2 4 [7, 3, 3, 1] [[0, 1, 2], [0, 1, 3]] = .ok inst ∧
      inst.NoiseInRange 5 ∧ ∃ ids σ',
        (construct inst 3 5).run ⟨.ofStream (.ofList [3, 1, 4]), []⟩ = .ok ids σ' ∧
          inst.covers ids = true ∧ ids.card ≤ 2 := by
  obtain ⟨inst, hbuild, hcoverable, hcount, helements, hcosts⟩ :
      ∃ inst, Instance.build 2 4 [7, 3, 3, 1] [[0, 1, 2], [0, 1, 3]] = .ok inst ∧
        inst.requireCoverable = .ok () ∧ inst.subsetCount = 4 ∧ inst.elementCount = 2 ∧
        ∀ id < inst.subsetCount, inst.costAt id ≤ 7 :=
    ⟨_, rfl, by with_unfolding_all rfl, rfl, rfl, by decide⟩
  have hlow : ∀ id < inst.subsetCount, inst.costAt id < 2 ^ 63 - 1 := fun id hid =>
    Nat.lt_of_le_of_lt (hcosts id hid) (by decide)
  have hfits : inst.NoiseFits 5 := Or.inr fun id hid => by
    have := hcosts id hid
    omega
  have hrange : inst.NoiseInRange 5 := hfits.inRange hlow
  have hsize : 3 ≤ inst.subsetCount := by omega
  obtain ⟨ids, σ', hrun, _⟩ := (ends_construct_total (E := noFault) hcoverable hlow hfits
    (Nat.succ_pos 2) hsize).exists_run
  obtain ⟨⟨hcovers, _⟩, _, _, _, _, _, _, ⟨_, _, hcard⟩, _⟩ :=
    construct_history inst 3 5 hrange ids _ σ' hrun
  exact ⟨inst, hbuild, hrange, ids, σ', hrun, hcovers, helements ▸ hcard⟩

end Greedy

end SetCover
