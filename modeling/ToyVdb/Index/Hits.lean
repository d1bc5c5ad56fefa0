import ToyVdb.Index.Flat
import Mathlib.Data.List.Range
import Mathlib.Data.List.Nodup

/-!
# What a search may and must return

`Sound` is what every search promises about its hits, `Exact` what the flat one adds: that they are the k
closest of all slots the search may return. A sound list of at most k hits is nowhere closer than the exact
one, rank by rank.
-/

namespace ToyVdb

variable {Score : Type} [LinearOrder Score]

section Spec

variable (metric : Metric Score) (s : VectorStore) (query : Vec) (allow : Nat → Bool)

/-- Distinct admitted slots with their current distances, closest first. -/
structure Sound (hits : List (SearchResult Score)) : Prop where
  nodup : (hits.map SearchResult.id).Nodup
  admitted : ∀ hit ∈ hits, allow hit.id = true
  score_eq : ∀ hit ∈ hits, hit.score = metric.distance query (s.get hit.id)
  ascending : hits.Pairwise fun a b => a.score ≤ b.score

/-- The slots a search may return. -/
def candidates : List Nat := (List.range s.slotCount).filter allow

structure Exact (k : Nat) (hits : List (SearchResult Score)) : Prop
    extends Sound metric s query allow hits where
  length_eq : hits.length = min k (candidates s allow).length
  nearest : ∀ id, allow id = true → id ∉ hits.map SearchResult.id →
    ∀ hit ∈ hits, hit.score ≤ metric.distance query (s.get id)

end Spec

variable {metric : Metric Score} {s : VectorStore} {query : Vec} {allow : Nat → Bool}
  {hits : List (SearchResult Score)}

theorem sound_nil : Sound metric s query allow [] :=
  ⟨List.nodup_nil, fun _ h => absurd h List.not_mem_nil, fun _ h => absurd h List.not_mem_nil,
  List.Pairwise.nil⟩

theorem nodup_candidates (s : VectorStore) (allow : Nat → Bool) : (candidates s allow).Nodup :=
  List.nodup_range.filter _

theorem mem_candidates (hallow : ∀ id, allow id = true → id < s.slotCount) {id : Nat} :
    id ∈ candidates s allow ↔ allow id = true := by
  rw [candidates, List.mem_filter, List.mem_range]
  exact ⟨fun h => h.2, fun h => ⟨hallow id h, h⟩⟩

theorem Sound.map_id_subperm (h : Sound metric s query allow hits)
    (hallow : ∀ id, allow id = true → id < s.slotCount) :
    (hits.map SearchResult.id).Subperm (candidates s allow) := by
  apply h.nodup.subperm
  intro id hid
  obtain ⟨hit, hhit, rfl⟩ := List.mem_map.mp hid
  exact (mem_candidates hallow).mpr (h.admitted hit hhit)

theorem Sound.length_le (h : Sound metric s query allow hits)
    (hallow : ∀ id, allow id = true → id < s.slotCount) :
    hits.length ≤ (candidates s allow).length := by
  rw [← List.length_map (f := SearchResult.id)]
  exact (h.map_id_subperm hallow).length_le

theorem Sound.map_score (h : Sound metric s query allow hits) :
    hits.map SearchResult.score =
      (hits.map SearchResult.id).map fun id => metric.distance query (s.get id) := by
  rw [List.map_map]
  exact List.map_congr_left h.score_eq

/-- The k least distances of the slots a search may return. -/
def exactScores (metric : Metric Score) (s : VectorStore) (query : Vec) (allow : Nat → Bool)
    (k : Nat) : List Score :=
  (((candidates s allow).map fun id => metric.distance query (s.get id)).insertionSort (· ≤ ·)).take k

/-- Rank by rank, sound hits are no closer than the exact ones. -/
theorem Sound.exactScores_le (h : Sound metric s query allow hits)
    (hallow : ∀ id, allow id = true → id < s.slotCount) {k : Nat} (hk : hits.length ≤ k) {i : Nat}
    {hit : SearchResult Score} (hhit : hits[i]? = some hit) :
    ∃ best, (exactScores metric s query allow k)[i]? = some best ∧ best ≤ hit.score := by
  have hsub : (hits.map SearchResult.score).Subperm
      ((candidates s allow).map fun id => metric.distance query (s.get id)) := by
    rw [h.map_score]
    obtain ⟨ids, hperm, hsub⟩ := h.map_id_subperm hallow
    exact ⟨_, hperm.map _, hsub.map _⟩
  have hsorted : (hits.map SearchResult.score).Pairwise (· ≤ ·) := List.pairwise_map.mpr h.ascending
  apply PriorityQueue.exists_le_take_sort hsub hsorted
  · rwa [List.length_map]
  · rw [List.getElem?_map, hhit]
    rfl

theorem exact_of_keeps (hallow : ∀ id, allow id = true → id < s.slotCount) {k : Nat}
    {heap : List (SearchResult Score)}
    (h : PriorityQueue.Keeps SearchResult.score k
      ((candidates s allow).map (FlatIndex.hit metric s query)) heap) :
    Exact metric s query allow k heap.reverse := by
  obtain ⟨dropped, hperm, hle⟩ := h.split
  have hids : (heap ++ dropped).map SearchResult.id |>.Perm (candidates s allow) := by
    refine (hperm.symm.map SearchResult.id).trans ?_
    rw [List.map_map]
    exact List.Perm.of_eq (List.map_id _)
  have hhit : ∀ hit ∈ heap ++ dropped, ∃ id, allow id = true ∧
    FlatIndex.hit metric s query id = hit := fun hit hmem => by
    obtain ⟨id, hid, heq⟩ := List.mem_map.mp (hperm.symm.subset hmem)
    exact ⟨id, (mem_candidates hallow).mp hid, heq⟩
  refine ⟨⟨?_, fun hit hmem => ?_, fun hit hmem => ?_, ?_⟩, ?_, fun id hid hout hit hmem => ?_⟩
  · rw [List.map_reverse, List.nodup_reverse]
    have hall := hids.nodup_iff.mpr (nodup_candidates s allow)
    rw [List.map_append] at hall
    exact (List.nodup_append.mp hall).1
  · obtain ⟨id, hid, rfl⟩ := hhit hit (List.mem_append_left _ (List.mem_reverse.mp hmem))
    exact hid
  · obtain ⟨id, hid, rfl⟩ := hhit hit (List.mem_append_left _ (List.mem_reverse.mp hmem))
    rfl
  · exact List.pairwise_reverse.mpr h.ordered
  · rw [List.length_reverse, h.length_eq, List.length_map]
  · have hseen : FlatIndex.hit metric s query id ∈ heap ++ dropped :=
      hperm.subset (List.mem_map_of_mem ((mem_candidates hallow).mpr hid))
    rcases List.mem_append.mp hseen with hheap | hdropped
    · exact absurd (List.mem_map.mpr ⟨_, List.mem_reverse.mpr hheap, rfl⟩) hout
    · exact hle hit (List.mem_reverse.mp hmem) _ hdropped

theorem exact_zero : Exact metric s query allow 0 [] where
  toSound := sound_nil
  length_eq := (Nat.zero_min _).symm
  nearest _ _ _ _ h := absurd h List.not_mem_nil

theorem FlatIndex.search_exact (metric : Metric Score) (query : Vec) {index : FlatIndex}
    (params : SearchParams) (hnodup : index.ids.Nodup)
    (hids : ∀ id, s.admits params.allowed id = true → id ∈ index.ids)
    (hlive : ∀ id, s.isLive id = true → id < s.slotCount) (k : Nat) :
    ∃ hits, index.search metric s query k params = .ok hits ∧
      Exact metric s query (s.admits params.allowed) k hits ∧
      hits.map SearchResult.score = exactScores metric s query (s.admits params.allowed) k := by
  have hallow : ∀ id, s.admits params.allowed id = true → id < s.slotCount := fun id hid =>
    hlive id (Bool.and_eq_true_iff.mp hid).1
  by_cases hk : k = 0
  · subst hk
    exact ⟨[], rfl, exact_zero, (List.take_zero).symm⟩
  obtain ⟨heap, hsearch, hkeeps⟩ := index.search_keeps metric query hk params fun id _ => hlive id
  have hperm : ((candidates s (s.admits params.allowed)).map (FlatIndex.hit metric s query)).Perm
      ((index.ids.filter (s.admits params.allowed)).map (FlatIndex.hit metric s query)) := by
    apply List.Perm.map
    rw [List.perm_ext_iff_of_nodup (nodup_candidates s _) (hnodup.filter _)]
    intro id
    rw [mem_candidates hallow, List.mem_filter]
    exact ⟨fun hid => ⟨hids id hid, hid⟩, fun h => h.2⟩
  have hkeeps' := hkeeps.of_perm _ hperm
  refine ⟨heap.reverse, hsearch, exact_of_keeps hallow hkeeps', ?_⟩
  rw [hkeeps'.map_key_reverse, List.map_map]
  rfl

end ToyVdb
