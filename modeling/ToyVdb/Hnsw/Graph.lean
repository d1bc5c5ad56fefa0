import ToyVdb.Hnsw.LayerSearch
import ToyVdb.Hnsw.Link

/-!
# The graph invariant

Every link goes to another node that has the link's layer, no list repeats a node or exceeds its cap, and
the entry point is a node of the highest level. Insertion keeps it, and on the way never reads outside an
array and never runs out of rounds.

The invariant of the insertion loop is indexed by the layers still to be linked. On those layers the graph
is the one the loop started with: the new node has empty lists there and nobody links to it, so no search of
such a layer finds it, and what a search finds has at least that layer.
-/

namespace ToyVdb

namespace HnswIndex

open Outcome Relation

variable {h h' : HnswIndex} {params : HnswParams}

/-! ### The invariant -/

structure LinksInv (params : HnswParams) (h : HnswIndex) : Prop where
  links_length : ∀ node ∈ h.nodes, node.links.length = node.level + 1
  edge_ne : ∀ l i j, h.Edge l i j → j ≠ i
  edge_level : ∀ l i j, h.Edge l i j → ∃ lv, h.level? j = some lv ∧ l ≤ lv
  nodup : ∀ i l ls, h.links? i l = some ls → ls.Nodup
  length_le : ∀ i l ls, h.links? i l = some ls → ls.length ≤ maxLinks params l

/-- The entry point is a node whose level is the highest. -/
def EntryInv (h : HnswIndex) : Prop :=
  match h.entryPoint with
  | none => h.nodes = [] ∧ h.maxLevel = -1
  | some ep => ∃ lv, h.level? ep = some lv ∧ h.maxLevel = lv ∧ ∀ i lv', h.level? i = some lv' → lv' ≤ lv

structure GraphInv (params : HnswParams) (h : HnswIndex) : Prop extends LinksInv params h where
  built_eq : h.built = List.replicate h.nodes.length true
  entry : h.EntryInv

theorem lt_of_level? {i lv : Nat} (hlv : h.level? i = some lv) : i < h.nodes.length := by
  obtain ⟨node, hnode, -⟩ := Option.map_eq_some_iff.mp hlv
  exact (List.getElem?_eq_some_iff.mp hnode).1

theorem LinksInv.closed (hinv : LinksInv params h) {s : VectorStore} (hslots : h.nodes.length ≤ s.slotCount) :
    h.Closed s where
  edge_lt l i j hedge := by
    obtain ⟨lv, hlv, -⟩ := hinv.edge_level l i j hedge
    exact lt_of_level? hlv
  nodes_le := hslots

theorem LinksInv.links?_isSome (hinv : LinksInv params h) {i l lv : Nat}
    (hlv : h.level? i = some lv) (hl : l ≤ lv) :
    (h.links? i l).isSome := by
  obtain ⟨node, hnode, rfl⟩ := Option.map_eq_some_iff.mp hlv
  have hlen := hinv.links_length node (List.mem_of_getElem? hnode)
  have hlt : l < node.links.length := by omega
  rw [links?, hnode]
  simp [hlt]

theorem LinksInv.level_of_reaches (hinv : LinksInv params h) {l i j lv : Nat}
    (hlv : h.level? i = some lv) {m : Nat}
    (hm : m ≤ lv) (hml : m ≤ l) (hij : h.Reaches l i j) : ∃ lv', h.level? j = some lv' ∧ m ≤ lv' := by
  induction hij with
  | refl => exact ⟨lv, hlv, hm⟩
  | tail _ hedge _ =>
      obtain ⟨lv', hlv', hle⟩ := hinv.edge_level _ _ _ hedge
      exact ⟨lv', hlv', hml.trans hle⟩

theorem maxLinks_ge (params : HnswParams) (l : Nat) : params.M ≤ maxLinks params l := by
  unfold maxLinks
  split_ifs <;> omega

/-! ### Linking keeps the invariant -/

section Linked

variable {id lc : Nat} {nbs : List Nat} {cap : Nat}

theorem Linked.cases (hl : Linked h h' id lc nbs cap) {i l : Nat} {ls' : List Nat}
    (hls : h'.links? i l = some ls') :
    (i = id ∧ l = lc ∧ ls' = nbs) ∨
    (i ∈ nbs ∧ l = lc ∧ ∃ ls, h.links? i l = some ls ∧ Pruned cap (ls ++ [id]) ls') ∨
    h.links? i l = some ls' := by
  by_cases hlc : l = lc
  · subst hlc
    by_cases hid : i = id
    · subst hid
      rw [hl.self] at hls
      exact .inl ⟨rfl, rfl, (Option.some.inj hls).symm⟩
    · by_cases hmem : i ∈ nbs
      · obtain ⟨ls, new, hold, hnew, hpruned⟩ := hl.neighbor i hmem
        rw [hls] at hnew
        exact .inr (.inl ⟨hmem, rfl, ls, hold, Option.some.inj hnew ▸ hpruned⟩)
      · exact .inr (.inr ((hl.other i l fun hin => hin.2.elim hid hmem).symm.trans hls))
  · exact .inr (.inr ((hl.other i l fun hin => hlc hin.1).symm.trans hls))

theorem Linked.edge (hl : Linked h h' id lc nbs cap) {l i j : Nat} (hedge : h'.Edge l i j) :
    (i = id ∧ l = lc ∧ j ∈ nbs) ∨ (i ∈ nbs ∧ l = lc ∧ j = id) ∨ h.Edge l i j := by
  obtain ⟨ls', hls', hj⟩ := hedge
  rcases hl.cases hls' with ⟨hi, hlc, rfl⟩ | ⟨hi, hlc, ls, hls, hpruned⟩ | hls
  · exact .inl ⟨hi, hlc, hj⟩
  · rcases List.mem_append.mp (hpruned.sub.subset hj) with hj | hj
    · exact .inr (.inr ⟨ls, hls, hj⟩)
    · exact .inr (.inl ⟨hi, hlc, List.mem_singleton.mp hj⟩)
  · exact .inr (.inr ⟨ls', hls, hj⟩)

theorem LinksInv.linked (hinv : LinksInv params h) (hl : Linked h h' id lc nbs (maxLinks params lc))
    (hunlinked : ∀ i, ¬ h.Edge lc i id) (hnodup : nbs.Nodup) (hlen : nbs.length ≤ params.M)
    (hfresh : id ∉ nbs)
    {lv : Nat} (hlv : h.level? id = some lv) (hle : lc ≤ lv)
    (hnbs : ∀ b ∈ nbs, ∃ lv, h.level? b = some lv ∧ lc ≤ lv) : LinksInv params h' where
  links_length := by
    have hold : ∀ p ∈ h.nodes.map shape, p.2 = p.1 + 1 := by
      intro p hp
      obtain ⟨node, hnode, rfl⟩ := List.mem_map.mp hp
      exact hinv.links_length node hnode
    intro node hnode
    exact hold _ (hl.frame.shape_eq ▸ List.mem_map_of_mem hnode)
  edge_ne l i j hedge := by
    rcases hl.edge hedge with ⟨rfl, -, hj⟩ | ⟨hi, -, rfl⟩ | hedge
    · exact fun heq => hfresh (heq ▸ hj)
    · exact fun heq => hfresh (heq ▸ hi)
    · exact hinv.edge_ne l i j hedge
  edge_level l i j hedge := by
    rw [hl.frame.level?_eq]
    rcases hl.edge hedge with ⟨-, rfl, hj⟩ | ⟨-, rfl, rfl⟩ | hedge
    · exact hnbs j hj
    · exact ⟨lv, hlv, hle⟩
    · exact hinv.edge_level l i j hedge
  nodup i l ls' hls' := by
    rcases hl.cases hls' with ⟨-, -, rfl⟩ | ⟨-, rfl, ls, hls, hpruned⟩ | hls
    · exact hnodup
    · apply hpruned.nodup
      rw [List.nodup_append]
      refine ⟨hinv.nodup i l ls hls, List.nodup_singleton id, fun x hx y hy => ?_⟩
      rw [List.mem_singleton] at hy
      subst hy
      exact fun heq => hunlinked i ⟨ls, hls, heq ▸ hx⟩
    · exact hinv.nodup i l ls' hls
  length_le i l ls' hls' := by
    rcases hl.cases hls' with ⟨-, rfl, rfl⟩ | ⟨-, rfl, ls, hls, hpruned⟩ | hls
    · exact hlen.trans (maxLinks_ge params l)
    · exact hpruned.length_le
    · exact hinv.length_le i l ls' hls

end Linked

end HnswIndex

end ToyVdb
