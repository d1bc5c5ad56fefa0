import ToyVdb.Hnsw.Add
import ToyVdb.Index.Hits
import ToyVdb.Index.Distance

/-!
# Queries

A query returns, in every graph that satisfies the invariant: sound hits, all of them reached over layer-0
links from the node the zoom ended on. It returns something as soon as something admitted can be reached
from there, and with room for every node it returns everything admitted that can.
-/

namespace ToyVdb

namespace HnswIndex

open Outcome Relation

variable {Score : Type} [LinearOrder Score] {h : HnswIndex} {params : HnswParams} {metric : Metric Score}
  {s : VectorStore} {query : Vec} {k : Nat} {sp : SearchParams}

/-! ### Sorting the findings -/

theorem sortByDist_perm (w : List (Cand Score)) : (sortByDist w).Perm w := List.perm_insertionSort _ w

theorem sortByDist_ascending (w : List (Cand Score)) :
    (sortByDist w).Pairwise fun a b => a.dist ≤ b.dist := by
  have hle : (fun a b : Cand Score => a.dist ≤ b.dist) = fun a b => ¬ b.dist < a.dist := by
    funext a b
    rw [not_lt]
  have htotal : Std.Total fun a b : Cand Score => ¬ b.dist < a.dist :=
    ⟨fun a b => by simpa only [not_lt] using le_total a.dist b.dist⟩
  have htrans : IsTrans (Cand Score) fun a b => ¬ b.dist < a.dist :=
    ⟨fun a b c hab hbc => not_lt.mpr ((not_lt.mp hab).trans (not_lt.mp hbc))⟩
  rw [hle]
  exact List.pairwise_insertionSort _ w

/-- The hits of a query: the closest of what the layer search found. -/
def hits (k : Nat) (w : List (Cand Score)) : List (SearchResult Score) :=
  ((sortByDist w).take k).map fun c => ⟨c.id, c.dist⟩

theorem mem_hits {w : List (Cand Score)} {hit : SearchResult Score} (hhit : hit ∈ hits k w) :
    ∃ c ∈ w, hit.id = c.id ∧ hit.score = c.dist := by
  obtain ⟨c, hc, rfl⟩ := List.mem_map.mp hhit
  exact ⟨c, (sortByDist_perm w).subset (List.mem_of_mem_take hc), rfl, rfl⟩

theorem Searched.sound_hits {entries w : List (Cand Score)} {ef l : Nat} {allowed : Option Bitset}
    {vis : Visited}
    (hsearched : Searched h metric s query entries ef l allowed w vis) (k : Nat) :
    Sound metric s query (s.admits allowed) (hits k w) where
  nodup := by
    have hsub : ((hits k w).map SearchResult.id).Sublist ((sortByDist w).map Cand.id) := by
      rw [hits, List.map_map]
      exact (List.take_sublist k _).map Cand.id
    exact (((sortByDist_perm w).map Cand.id).nodup_iff.mpr hsearched.nodup).sublist hsub
  admitted hit hhit := by
    obtain ⟨c, hc, hid, -⟩ := mem_hits hhit
    exact hid ▸ (hsearched.result c hc).admitted
  score_eq hit hhit := by
    obtain ⟨c, hc, hid, hscore⟩ := mem_hits hhit
    rw [hid, hscore]
    exact (hsearched.result c hc).measured
  ascending := List.pairwise_map.mpr ((sortByDist_ascending w).sublist (List.take_sublist k _))

/-! ### The query -/

/-- What a query of a non-empty graph returns, relative to the node its zoom ended on. -/
structure Queried (h : HnswIndex) (s : VectorStore) (k : Nat) (allowed : Option Bitset) (best : Nat)
    (hits : List (SearchResult Score)) : Prop where
  best_lt : best < h.nodes.length
  reached : ∀ hit ∈ hits, h.Reaches 0 best hit.id
  nonempty : (∃ i, h.Reaches 0 best i ∧ s.admits allowed i = true) → hits ≠ []
  complete : h.nodes.length ≤ k → ∀ i, h.Reaches 0 best i → s.admits allowed i = true →
    i ∈ hits.map SearchResult.id

theorem Searched.queried {best : Cand Score} {w : List (Cand Score)} {ef : Nat} {allowed : Option Bitset}
    {vis : Visited} (hclosed : h.Closed s) (hbest : best.id < h.nodes.length) (hk : 0 < k) (hef : k ≤ ef)
    (hsearched : Searched h metric s query [best] ef 0 allowed w vis) :
    Queried h s k allowed best.id (hits k w) := by
  have hfrom : ∀ {i}, h.FromEntries [best] 0 i ↔ h.Reaches 0 best.id i := by
    intro i
    simp [FromEntries]
  refine ⟨hbest, fun hit hhit => ?_, fun ⟨i, hreach, hallow⟩ hnil => ?_, fun hroom i hreach hallow => ?_⟩
  · obtain ⟨c, hc, hid, -⟩ := mem_hits hhit
    exact hid ▸ hfrom.mp (hsearched.result c hc).found
  · have hw : w = [] := by
      have hlen : (hits k w).length = 0 := by rw [hnil, List.length_nil]
      rw [hits, List.length_map, List.length_take, (sortByDist_perm w).length_eq] at hlen
      exact List.length_eq_zero_iff.mp (by omega)
    subst hw
    exact absurd (hsearched.complete (hk.trans_le hef) i (hfrom.mpr hreach) hallow) List.not_mem_nil
  · -- with room for every node nothing is cut off, and a full result set holds every node
    have hlt : ∀ c ∈ w, c.id < h.nodes.length := fun c hc =>
      hclosed.lt_of_reaches hbest (hfrom.mp (hsearched.result c hc).found)
    have hsub : (w.map Cand.id).Subperm (List.range h.nodes.length) := by
      apply hsearched.nodup.subperm
      intro j hj
      obtain ⟨c, hc, rfl⟩ := List.mem_map.mp hj
      exact List.mem_range.mpr (hlt c hc)
    have hlen : w.length ≤ h.nodes.length := by simpa using hsub.length_le
    have hi : i ∈ w.map Cand.id := by
      rcases Nat.lt_or_ge w.length ef with hless | hfull
      · exact hsearched.complete hless i (hfrom.mpr hreach) hallow
      · have hperm := hsub.perm_of_length_le (by simpa using hroom.trans (hef.trans hfull))
        exact hperm.symm.subset (List.mem_range.mpr (hclosed.lt_of_reaches hbest hreach))
    rw [hits, List.take_of_length_le ((sortByDist_perm w).length_eq.trans_le (hlen.trans hroom)),
      List.map_map]
    exact ((sortByDist_perm w).map Cand.id).symm.subset hi

theorem search_empty (hempty : h.entryPoint = none) : h.search metric s query k sp = .ok [] := by
  rw [search, hempty]
  split_ifs <;> rfl

theorem exists_descend (metric : Metric Score) (query : Vec) (hinv : GraphInv params h)
    (hslots : h.nodes.length ≤ s.slotCount) {ep : Nat} (hep : h.entryPoint = some ep) :
    ∃ best, h.descend metric s query ep h.maxLevel.toNat 1 = .ok best ∧ best.id < h.nodes.length ∧
      Measured metric s query best := by
  have hentry := hinv.entry
  unfold EntryInv at hentry
  rw [hep] at hentry
  obtain ⟨lv, hlv, -, -⟩ := hentry
  have hdescend : Yields (h.descend metric s query ep h.maxLevel.toNat 1) _ :=
    descend_yields hinv.toLinksInv hslots hlv (Nat.zero_le lv) (Nat.zero_le 1)
  obtain ⟨best, hbest, hmeasured, ⟨lvb, hlvb, -⟩, -⟩ := hdescend
  exact ⟨best, hbest, lt_of_level? hlvb, hmeasured⟩

/-- A query zooms in, searches layer 0 from where the zoom ends, and returns the closest of what it found. -/
theorem search_eq_hits (metric : Metric Score) (query : Vec) (sp : SearchParams) (hinv : GraphInv params h)
    (hslots : h.nodes.length ≤ s.slotCount) (hk : k ≠ 0) {ep : Nat} (hep : h.entryPoint = some ep) :
    ∃ best w vis, h.descend metric s query ep h.maxLevel.toNat 1 = .ok best ∧ best.id < h.nodes.length ∧
      Searched h metric s query [best] (max sp.ef k) 0 sp.allowed w vis ∧
      h.search metric s query k sp = .ok (hits k w) := by
  have hclosed := hinv.toLinksInv.closed hslots
  obtain ⟨best, hbest, hlt, hmeasured⟩ := exists_descend metric query hinv hslots hep
  have hentries : ∀ e ∈ [best], e.id < h.nodes.length := List.forall_mem_singleton.mpr hlt
  have hlayer : Yields (h.searchLayer metric s query [best] (max sp.ef k) 0 sp.allowed _) _ :=
    searchLayer_yields hclosed hentries (List.nodup_singleton _) (List.forall_mem_singleton.mpr hmeasured)
      (Visited.wf_ensure _) (Visited.length_ensure h.nodes.length).ge
  obtain ⟨⟨w, vis⟩, hw, hsearched⟩ := hlayer
  refine ⟨best, w, vis, hbest, hlt, hsearched, ?_⟩
  rw [search, if_neg hk, hep]
  dsimp only
  rw [hbest]
  show (searchLayer metric s h query [best] (max sp.ef k) 0 sp.allowed _ >>= _) = _
  rw [hw]
  rfl

theorem search_yields (hinv : GraphInv params h) (hslots : h.nodes.length ≤ s.slotCount) (hk : k ≠ 0)
    (hnodes : h.nodes ≠ []) :
    Yields (h.search metric s query k sp) fun hits =>
      Sound metric s query (s.admits sp.allowed) hits ∧ hits.length ≤ k ∧
        ∃ ep best, h.entryPoint = some ep ∧ h.descend metric s query ep h.maxLevel.toNat 1 = .ok best ∧
          Queried h s k sp.allowed best.id hits := by
  cases hep : h.entryPoint with
  | none =>
      have hentry := hinv.entry
      unfold EntryInv at hentry
      rw [hep] at hentry
      exact absurd hentry.1 hnodes
  | some ep =>
      obtain ⟨best, w, vis, hbest, hlt, hsearched, hsearch⟩ := search_eq_hits metric query sp hinv hslots hk hep
      refine ⟨_, hsearch, hsearched.sound_hits k, ?_, ep, best, rfl, hbest,
        hsearched.queried (hinv.toLinksInv.closed hslots) hlt
        (Nat.pos_of_ne_zero hk) (Nat.le_max_right _ _)⟩
      rw [hits, List.length_map]
      exact List.length_take_le k _

/-! ### Room for everything that can be reached -/

omit [LinearOrder Score] in
/-- With room for all admitted nodes that the entries reach, the layer search finds them all: while
one is missing the results are not full, and as long as they are not full nothing is cut off. -/
theorem Searched.mem_iff {entries w : List (Cand Score)} {ef l : Nat} {allowed : Option Bitset}
    {vis : Visited}
    (hsearched : Searched h metric s query entries ef l allowed w vis) {R : Finset Nat}
    (hR : ∀ i, i ∈ R ↔ h.FromEntries entries l i ∧ s.admits allowed i = true) (hcard : R.card ≤ ef)
    (i : Nat) :
    i ∈ w.map Cand.id ↔ i ∈ R := by
  have hsub : (w.map Cand.id).toFinset ⊆ R := by
    intro j hj
    obtain ⟨c, hc, rfl⟩ := List.mem_map.mp (List.mem_toFinset.mp hj)
    exact (hR c.id).mpr ⟨(hsearched.result c hc).found, (hsearched.result c hc).admitted⟩
  constructor
  · exact fun hi => hsub (List.mem_toFinset.mpr hi)
  · intro hi
    obtain ⟨hfrom, hallow⟩ := (hR i).mp hi
    rcases Nat.lt_or_ge w.length ef with hless | hfull
    · exact hsearched.complete hless i hfrom hallow
    · have hlen : (w.map Cand.id).toFinset.card = w.length := by
        rw [List.toFinset_card_of_nodup hsearched.nodup, List.length_map]
      have hall := Finset.eq_of_subset_of_card_le hsub (by rw [hlen]; exact hcard.trans hfull)
      rw [← hall] at hi
      exact List.mem_toFinset.mp hi

theorem hits_le {w : List (Cand Score)} {c : Cand Score} (hc : c ∈ w)
    (hout : c.id ∉ (hits k w).map SearchResult.id)
    {hit : SearchResult Score} (hhit : hit ∈ hits k w) : hit.score ≤ c.dist := by
  obtain ⟨c', hc', rfl⟩ := List.mem_map.mp hhit
  have hsorted := sortByDist_ascending w
  rw [← List.take_append_drop k (sortByDist w), List.pairwise_append] at hsorted
  have hmem := (sortByDist_perm w).symm.subset hc
  rw [← List.take_append_drop k (sortByDist w), List.mem_append] at hmem
  refine hsorted.2.2 c' hc' c (hmem.resolve_left fun htake => hout ?_)
  exact List.mem_map.mpr ⟨_, List.mem_map_of_mem htake, rfl⟩

/-- **HNSW search is complete relative to reachability.** In every graph that satisfies the
invariant, over any store, let the zoom end on a node, and take the admitted nodes that layer-0
links reach from there, through whatever nodes. If the breadth has room for them, the search returns
as many of them as it was asked for, and the closest ones. -/
theorem hnsw_search_is_complete (params : HnswParams) (h : HnswIndex) (hinv : GraphInv params h)
    (s : VectorStore)
    (hslots : h.nodes.length ≤ s.slotCount) (metric : Metric Score) (query : Vec) (k : Nat) (hk : 1 ≤ k)
    (sp : SearchParams) (ep : Nat) (hep : h.entryPoint = some ep) :
    ∃ best hits, ∃ R : Finset Nat, h.descend metric s query ep h.maxLevel.toNat 1 = .ok best ∧
      h.search metric s query k sp = .ok hits ∧
      (∀ i, i ∈ R ↔ h.Reaches 0 best.id i ∧ s.admits sp.allowed i = true) ∧
      (R.card ≤ max sp.ef k →
        hits.length = min k R.card ∧ Sound metric s query (s.admits sp.allowed) hits ∧
          (∀ hit ∈ hits, hit.id ∈ R) ∧
          ∀ i ∈ R, i ∉ hits.map SearchResult.id →
            ∀ hit ∈ hits, hit.score ≤ metric.distance query (s.get i)) := by
  classical
  obtain ⟨best, w, vis, hbest, hlt, hsearched, hsearch⟩ :=
    search_eq_hits metric query sp hinv hslots (Nat.ne_of_gt hk) hep
  have hclosed := hinv.toLinksInv.closed hslots
  let R := (Finset.range h.nodes.length).filter fun i => h.Reaches 0 best.id i ∧ s.admits sp.allowed i = true
  have hR : ∀ i, i ∈ R ↔ h.Reaches 0 best.id i ∧ s.admits sp.allowed i = true := fun i => by
    rw [Finset.mem_filter, Finset.mem_range]
    exact ⟨fun hi => hi.2, fun hi => ⟨hclosed.lt_of_reaches hlt hi.1, hi⟩⟩
  refine ⟨best, hits k w, R, hbest, hsearch, hR, fun hcard => ?_⟩
  have hmem := hsearched.mem_iff (R := R) (fun i => by rw [hR]; simp [FromEntries]) hcard
  have hperm : w.length = R.card := by
    rw [← List.length_map (f := Cand.id), ← List.toFinset_card_of_nodup hsearched.nodup]
    congr 1
    ext i
    rw [List.mem_toFinset, hmem]
  refine ⟨?_, hsearched.sound_hits k, fun hit hhit => ?_, fun i hi hout hit hhit => ?_⟩
  · rw [hits, List.length_map, List.length_take, (sortByDist_perm w).length_eq, hperm]
  · obtain ⟨c, hc, hid, -⟩ := mem_hits hhit
    rw [hid, ← hmem]
    exact List.mem_map_of_mem hc
  · obtain ⟨c, hc, rfl⟩ := List.mem_map.mp ((hmem i).mpr hi)
    have hdist : c.dist = metric.distance query (s.get c.id) := (hsearched.result c hc).measured
    exact hdist ▸ hits_le hc hout hhit

/-- Two nodes that link to each other. -/
def sampleGraph : HnswIndex :=
  { nodes := [⟨0, [[1]]⟩, ⟨0, [[0]]⟩], built := [true, true], entryPoint := some 0, maxLevel := 0,
    drawn := 2 }

theorem sampleGraph_links {i l : Nat} {ls : List Nat} (hls : sampleGraph.links? i l = some ls) :
    l = 0 ∧ (i = 0 ∧ ls = [1] ∨ i = 1 ∧ ls = [0]) := by
  match i, l with
  | 0, 0 => exact ⟨rfl, .inl ⟨rfl, (Option.some.inj hls).symm⟩⟩
  | 1, 0 => exact ⟨rfl, .inr ⟨rfl, (Option.some.inj hls).symm⟩⟩
  | 0, l + 1 => cases hls
  | 1, l + 1 => cases hls
  | i + 2, l => cases hls

theorem graphInv_sampleGraph : GraphInv ⟨1, 1, 64, fun _ => 0⟩ sampleGraph where
  links_length := by decide
  edge_ne := by
    rintro l i j ⟨ls, hls, hj⟩
    obtain ⟨-, ⟨rfl, rfl⟩ | ⟨rfl, rfl⟩⟩ := sampleGraph_links hls
    · rw [List.mem_singleton.mp hj]
      decide
    · rw [List.mem_singleton.mp hj]
      decide
  edge_level := by
    rintro l i j ⟨ls, hls, hj⟩
    obtain ⟨rfl, ⟨rfl, rfl⟩ | ⟨rfl, rfl⟩⟩ := sampleGraph_links hls
    · exact ⟨0, by rw [List.mem_singleton.mp hj]; rfl, Nat.le_refl 0⟩
    · exact ⟨0, by rw [List.mem_singleton.mp hj]; rfl, Nat.le_refl 0⟩
  nodup i l ls hls := by
    obtain ⟨-, ⟨-, rfl⟩ | ⟨-, rfl⟩⟩ := sampleGraph_links hls
    · decide
    · decide
  length_le i l ls hls := by
    obtain ⟨rfl, ⟨-, rfl⟩ | ⟨-, rfl⟩⟩ := sampleGraph_links hls
    · decide
    · decide
  built_eq := rfl
  entry := by
    refine ⟨0, rfl, rfl, fun i lv hlv => ?_⟩
    match i with
    | 0 => exact (Option.some.inj hlv).symm.le
    | 1 => exact (Option.some.inj hlv).symm.le
    | i + 2 => cases hlv

/-- The first slot is dead, the second is not. -/
def sampleStore : VectorStore :=
  { dim := 1, arena := [0, 0x41200000], live := [false, true], extIds := [ascii "a", ascii "b"],
    metas := [∅, ∅] }

/-- The search passes through the dead entry point and finds the live node behind it. -/
theorem hnsw_search_is_complete_sample :
    ∃ hits, sampleGraph.search l2 sampleStore [0] 1 {} = .ok hits ∧ hits.length = 1 ∧
      ∀ hit ∈ hits, hit.id = 1 ∧ hit.score = l2.distance [0] (sampleStore.get 1) := by
  obtain ⟨best, hits, R, hdescend, hsearch, hR, hcomplete⟩ :=
    hnsw_search_is_complete ⟨1, 1, 64, fun _ => 0⟩ sampleGraph
    graphInv_sampleGraph sampleStore (by decide) l2 [0] 1 (by decide) {} 0 rfl
  cases hdescend
  have honly : R = {1} := by
    ext i
    rw [hR, Finset.mem_singleton]
    constructor
    · rintro ⟨-, hallow⟩
      match i with
      | 0 => exact absurd hallow (by decide)
      | 1 => rfl
      | i + 2 => exact absurd hallow (by simp [VectorStore.admits, VectorStore.isLive, sampleStore])
    · rintro rfl
      exact ⟨.single ⟨[1], rfl, List.mem_singleton_self 1⟩, by decide⟩
  subst honly
  obtain ⟨hlength, hsound, hmem, -⟩ := hcomplete (by decide)
  refine ⟨hits, hsearch, hlength, fun hit hhit => ?_⟩
  have hid := Finset.mem_singleton.mp (hmem hit hhit)
  exact ⟨hid, hid ▸ hsound.score_eq hit hhit⟩

end HnswIndex

end ToyVdb
