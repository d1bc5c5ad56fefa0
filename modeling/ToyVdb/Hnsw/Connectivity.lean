import ToyVdb.Hnsw.Query

/-!
# Connectivity of the base layer

When layer 0 is connected, a query finds something wherever its zoom ends. A new node keeps it connected if
it finds a neighbour, which it does as soon as there is a live node to find, and if no neighbour's list is
cut, which none is that has room for one more.
-/

namespace ToyVdb

namespace HnswIndex

open Relation

variable {h h' : HnswIndex} {params : HnswParams} {s : VectorStore}

/-- Every node reaches every other over layer-0 links. -/
def BaseConnected (h : HnswIndex) : Prop := ∀ i j, i < h.nodes.length → j < h.nodes.length → h.Reaches 0 i j

/-- None of the layer-0 lists of some nodes is at its cap. -/
def BaseRoom (params : HnswParams) (h : HnswIndex) (nbs : List Nat) : Prop :=
  ∀ i ∈ nbs, ∀ ls, h.links? i 0 = some ls → ls.length < maxLinks params 0

theorem lt_of_links? {i l : Nat} {ls : List Nat} (hls : h.links? i l = some ls) : i < h.nodes.length := by
  obtain ⟨node, hnode, -⟩ := Option.bind_eq_some_iff.mp hls
  exact (List.getElem?_eq_some_iff.mp hnode).1

theorem edge_to_placed {l i j : Nat} (hedge : h.Edge l i j) : (h.placed params).Edge l i j := by
  obtain ⟨ls, hls, hj⟩ := hedge
  exact ⟨ls, (links?_placed_of_lt (lt_of_links? hls) l).trans hls, hj⟩

/-- A small graph has room everywhere: a list has at most all the other nodes. -/
theorem LinksInv.baseRoom (hinv : LinksInv params h) (hsmall : h.nodes.length ≤ 2 * params.M) (nbs : List Nat) :
    h.BaseRoom params nbs := by
  intro i _ ls hls
  have hnodup : (i :: ls).Nodup := by
    refine List.nodup_cons.mpr ⟨fun hmem => ?_, hinv.nodup i 0 ls hls⟩
    exact hinv.edge_ne 0 i i ⟨ls, hls, hmem⟩ rfl
  have hsub : (i :: ls).Subperm (List.range h.nodes.length) := by
    apply hnodup.subperm
    intro j hj
    rw [List.mem_range]
    rcases List.mem_cons.mp hj with rfl | hj
    · exact lt_of_links? hls
    · obtain ⟨lv, hlv, -⟩ := hinv.edge_level 0 i j ⟨ls, hls, hj⟩
      exact lt_of_level? hlv
  have hlen := hsub.length_le
  rw [List.length_cons, List.length_range] at hlen
  rw [maxLinks, if_pos rfl]
  omega

section BaseLinked

variable {entry : Nat} {nbs : List Nat}
  (hbase : BaseLinked params s (h.placed params) h' h.nodes.length entry nbs)
  (hfresh : h.nodes.length ∉ nbs) (hroom : h.BaseRoom params nbs)

include hbase hfresh

theorem BaseLinked.lt_of_mem {b : Nat} (hb : b ∈ nbs) : b < h.nodes.length := by
  obtain ⟨ls, -, hls, -⟩ := hbase.neighbor b hb
  have hlt := lt_of_links? hls
  rw [nodes_placed, List.length_append, List.length_singleton] at hlt
  have hne : b ≠ h.nodes.length := fun heq => hfresh (heq ▸ hb)
  omega

include hroom

theorem BaseLinked.links?_neighbor {b : Nat} (hb : b ∈ nbs) :
    ∃ ls, h.links? b 0 = some ls ∧ h'.links? b 0 = some (ls ++ [h.nodes.length]) := by
  obtain ⟨ls, ls', hls, hls', hpruned⟩ := hbase.neighbor b hb
  rw [links?_placed_of_lt (hbase.lt_of_mem hfresh hb)] at hls
  have hlen := hroom b hb ls hls
  refine ⟨ls, hls, ?_⟩
  rw [hls', hpruned.eq_of_le (by rw [List.length_append, List.length_singleton]; omega)]

theorem BaseLinked.edge_of_edge {i j : Nat} (hedge : h.Edge 0 i j) : h'.Edge 0 i j := by
  obtain ⟨ls, hls, hj⟩ := hedge
  have hi := lt_of_links? hls
  by_cases hmem : i ∈ nbs
  · obtain ⟨ls', hls', hnow⟩ := hbase.links?_neighbor hfresh hroom hmem
    rw [hls] at hls'
    exact ⟨_, hnow, List.mem_append_left _ (Option.some.inj hls' ▸ hj)⟩
  · refine ⟨ls, ?_, hj⟩
    rw [hbase.other i hi.ne hmem, links?_placed_of_lt hi, hls]

theorem BaseLinked.reaches_of_reaches {i j : Nat} (hreach : h.Reaches 0 i j) : h'.Reaches 0 i j :=
  ReflTransGen.mono (fun _ _ hedge => hbase.edge_of_edge hfresh hroom hedge) _ _ hreach

end BaseLinked

theorem Added.baseConnected (hadd : Added params s h h') (hconn : h.BaseConnected) (hM : 0 < params.M)
    (hef : 0 < params.efConstruction) (hroom : h.BaseRoom params ((h'.links? h.nodes.length 0).getD []))
    (hlive : h.nodes ≠ [] → ∃ i, i < h.nodes.length ∧ s.isLive i = true) : h'.BaseConnected := by
  intro i j hi hj
  rw [hadd.length_eq] at hi hj
  rcases hadd.base with hnil | ⟨entry, nbs, hentry, hfresh, hbase⟩
  · rw [hnil, List.length_nil] at hi hj
    have heq : i = j := by omega
    exact heq ▸ .refl
  rw [hbase.self, Option.getD_some] at hroom
  have hsome : nbs ≠ [] := by
    have hnodes : h.nodes ≠ [] := by
      intro hnil
      rw [hnil, List.length_nil] at hentry
      omega
    obtain ⟨x, hx, hxlive⟩ := hlive hnodes
    apply hbase.nonempty hM hef
    exact ⟨x, ReflTransGen.mono (fun _ _ hedge => edge_to_placed hedge) _ _ (hconn entry x hentry hx), hxlive⟩
  obtain ⟨b, hb⟩ := List.exists_mem_of_ne_nil nbs hsome
  have hblt := hbase.lt_of_mem hfresh hb
  obtain ⟨ls, -, hnow⟩ := hbase.links?_neighbor hfresh hroom hb
  have hto : h'.Edge 0 b h.nodes.length := ⟨_, hnow, List.mem_append_right _ (List.mem_singleton.mpr rfl)⟩
  have hfrom : h'.Edge 0 h.nodes.length b := ⟨nbs, hbase.self, hb⟩
  have hold : ∀ x y, x < h.nodes.length → y < h.nodes.length → h'.Reaches 0 x y := fun x y hx hy =>
    hbase.reaches_of_reaches hfresh hroom (hconn x y hx hy)
  -- through the neighbour the new node and the old ones reach each other
  have htoNew : ∀ x, x < h.nodes.length + 1 → h'.Reaches 0 x h.nodes.length := by
    intro x hx
    rcases Nat.lt_or_eq_of_le (Nat.le_of_lt_succ hx) with hlt | rfl
    · exact (hold x b hlt hblt).tail hto
    · exact .refl
  have hfromNew : ∀ y, y < h.nodes.length + 1 → h'.Reaches 0 h.nodes.length y := by
    intro y hy
    rcases Nat.lt_or_eq_of_le (Nat.le_of_lt_succ hy) with hlt | rfl
    · exact .head hfrom (hold b y hblt hlt)
    · exact .refl
  exact (htoNew i hi).trans (hfromNew j hj)

end HnswIndex

end ToyVdb
