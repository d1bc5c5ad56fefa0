import ToyVdb.Hnsw.Visited
import Mathlib.Logic.Relation
import Mathlib.Data.List.Nodup
import Mathlib.Data.List.Perm.Basic

/-!
# Greedy descent

The graph as a relation per layer, and the specification of the greedy zoom for every graph whose links
stay inside it: it ends, at a node it reached over the layer's links and none of whose neighbours is closer,
whatever cycles or one-sided links the layer has.
-/

namespace ToyVdb

namespace HnswIndex

open Outcome Relation

variable {Score : Type} {h : HnswIndex} {s : VectorStore} {metric : Metric Score} {q : Vec}

/-! ### The graph -/

/-- The neighbours of a node at a layer, if it has the layer. -/
def links? (h : HnswIndex) (i l : Nat) : Option (List Nat) := (h.nodes[i]?).bind fun node => node.links[l]?

def Edge (h : HnswIndex) (l i j : Nat) : Prop := ∃ ls, h.links? i l = some ls ∧ j ∈ ls

abbrev Reaches (h : HnswIndex) (l : Nat) : Nat → Nat → Prop := ReflTransGen (h.Edge l)

/-- No link leaves the graph, and every node has its slot. -/
structure Closed (h : HnswIndex) (s : VectorStore) : Prop where
  edge_lt : ∀ l i j, h.Edge l i j → j < h.nodes.length
  nodes_le : h.nodes.length ≤ s.slotCount

theorem Closed.lt_of_reaches (hc : h.Closed s) {l i j : Nat} (hi : i < h.nodes.length)
    (hij : h.Reaches l i j) :
    j < h.nodes.length := by
  induction hij with
  | refl => exact hi
  | tail _ hedge _ => exact hc.edge_lt _ _ _ hedge

theorem node_ok {i : Nat} (hi : i < h.nodes.length) : h.node i = .ok h.nodes[i] := by
  rw [node, List.getElem?_eq_getElem hi]

theorem links?_eq {i : Nat} (hi : i < h.nodes.length) (l : Nat) : h.links? i l = h.nodes[i].links[l]? := by
  rw [links?, List.getElem?_eq_getElem hi]
  rfl

/-- A candidate that carries the distance of its node. -/
def Measured (metric : Metric Score) (s : VectorStore) (q : Vec) (c : Cand Score) : Prop :=
  c.dist = metric.distance q (s.get c.id)

theorem distTo_ok {i : Nat} (hi : i < s.slotCount) :
    distTo metric s q i = .ok (metric.distance q (s.get i)) := by
  rw [distTo, VectorStore.access_ok hi]
  rfl

theorem dist_of_distTo {i : Nat} {d : Score} (hdist : distTo metric s q i = .ok d) :
    d = metric.distance q (s.get i) := by
  unfold distTo VectorStore.access at hdist
  split_ifs at hdist
  · cases hdist
    rfl
  · cases hdist

variable [LinearOrder Score]

/-! ### Greedy descent -/

/-- What one pass over a link list does to the best candidate. -/
structure Improved (metric : Metric Score) (s : VectorStore) (q : Vec) (links : List Nat) (best : Cand Score)
    (changed : Bool) (best' : Cand Score) (changed' : Bool) : Prop where
  measured : Measured metric s q best → Measured metric s q best'
  moved : (best' = best ∧ changed' = changed) ∨ (best'.id ∈ links ∧ best'.dist < best.dist ∧ changed' = true)

/-- The best candidate after a pass is no farther than anything the pass looked at. -/
structure Scanned (metric : Metric Score) (s : VectorStore) (q : Vec) (links : List Nat) (best : Cand Score)
    (changed : Bool) (best' : Cand Score) (changed' : Bool) : Prop
    extends Improved metric s q links best changed best' changed' where
  least : ∀ e ∈ links, best'.dist ≤ metric.distance q (s.get e)

theorem Improved.dist_le {links : List Nat} {best best' : Cand Score} {changed changed' : Bool}
    (himproved : Improved metric s q links best changed best' changed') : best'.dist ≤ best.dist := by
  rcases himproved.moved with ⟨hbest, -⟩ | ⟨-, hlt, -⟩
  · rw [hbest]
  · exact hlt.le

theorem improve_yields (links : List Nat) (hlinks : ∀ e ∈ links, e < s.slotCount) (best : Cand Score)
    (changed : Bool) :
    Yields (improve metric s q links (best, changed))
      fun r => Scanned metric s q links best changed r.1 r.2 := by
  induction links generalizing best changed with
  | nil => exact .pure ⟨⟨fun hm => hm, .inl ⟨rfl, rfl⟩⟩, fun e he => absurd he List.not_mem_nil⟩
  | cons e links ih =>
      obtain ⟨he, hlinks⟩ := List.forall_mem_cons.mp hlinks
      rw [improve, distTo_ok he]
      change Yields (if metric.distance q (s.get e) < best.dist then _ else _) _
      split_ifs with hcloser
      · refine (ih hlinks ⟨_, e⟩ true).mono fun r hr => ⟨⟨fun _ => hr.measured rfl, .inr ?_⟩, ?_⟩
        · rcases hr.moved with ⟨hbest, hchanged⟩ | ⟨hmem, hlt, hchanged⟩
          · rw [hbest]
            exact ⟨List.mem_cons_self, hcloser, hchanged⟩
          · exact ⟨List.mem_cons_of_mem _ hmem, hlt.trans hcloser, hchanged⟩
        · exact List.forall_mem_cons.mpr ⟨hr.dist_le, hr.least⟩
      · refine (ih hlinks best changed).mono fun r hr => ⟨⟨hr.measured, ?_⟩, ?_⟩
        · exact hr.moved.imp_right fun hmoved => ⟨List.mem_cons_of_mem _ hmoved.1, hmoved.2⟩
        · exact List.forall_mem_cons.mpr ⟨hr.dist_le.trans (not_lt.mp hcloser), hr.least⟩

/-- The nodes closer to the query than a candidate. -/
def closer (h : HnswIndex) (metric : Metric Score) (s : VectorStore) (q : Vec) (best : Cand Score) :
    Finset Nat :=
  (Finset.range h.nodes.length).filter fun i => metric.distance q (s.get i) < best.dist

theorem card_closer_lt {best best' : Cand Score} (hlt : best'.dist < best.dist)
    (hid : best'.id < h.nodes.length)
    (hm : Measured metric s q best') :
    (h.closer metric s q best').card < (h.closer metric s q best).card := by
  apply Finset.card_lt_card
  rw [Finset.ssubset_iff_of_subset]
  · refine ⟨best'.id, Finset.mem_filter.mpr ⟨Finset.mem_range.mpr hid, hm ▸ hlt⟩, fun hmem => ?_⟩
    exact absurd (Finset.mem_filter.mp hmem).2 (hm ▸ lt_irrefl best'.dist)
  · intro i hi
    obtain ⟨hmem, hcloser⟩ := Finset.mem_filter.mp hi
    exact Finset.mem_filter.mpr ⟨hmem, hcloser.trans hlt⟩

/-- Where greedy descent ends: a node it reached over the layer's links, with its true distance, no farther
than where it began and than any of its neighbours. -/
structure Descended (h : HnswIndex) (metric : Metric Score) (s : VectorStore) (q : Vec) (l : Nat)
    (best r : Cand Score) : Prop where
  measured : Measured metric s q r
  reached : h.Reaches l best.id r.id
  dist_le : r.dist ≤ best.dist
  least : ∀ j, h.Edge l r.id j → r.dist ≤ metric.distance q (s.get j)

theorem greedyLoop_yields (hc : h.Closed s) (l : Nat) :
    ∀ (fuel : Nat) (best : Cand Score), best.id < h.nodes.length → Measured metric s q best →
      (h.closer metric s q best).card < fuel →
      Yields (greedyLoop metric s h q l fuel best) (Descended h metric s q l best) := by
  intro fuel
  induction fuel with
  | zero => intro best _ _ hfuel; exact absurd hfuel (Nat.not_lt_zero _)
  | succ fuel ih =>
      intro best hid hm hfuel
      rw [greedyLoop, node_ok hid]
      refine .bind (.ok rfl) fun node hnode => ?_
      subst hnode
      cases hlinks : h.nodes[best.id].links[l]? with
      | none =>
          refine .pure ⟨hm, .refl, le_rfl, fun j hedge => ?_⟩
          obtain ⟨ls, hls, -⟩ := hedge
          rw [links?_eq hid, hlinks] at hls
          cases hls
      | some links =>
          have hedge : ∀ e, h.Edge l best.id e ↔ e ∈ links := by
            intro e
            constructor
            · rintro ⟨ls, hls, he⟩
              rw [links?_eq hid, hlinks] at hls
              exact Option.some.inj hls ▸ he
            · exact fun he => ⟨links, (links?_eq hid l).trans hlinks, he⟩
          have hslots : ∀ e ∈ links, e < s.slotCount := fun e he =>
            Nat.lt_of_lt_of_le (hc.edge_lt _ _ _ ((hedge e).mpr he)) hc.nodes_le
          refine (improve_yields links hslots best false).bind fun r hr => ?_
          obtain ⟨best', changed⟩ := r
          rcases hr.moved with ⟨rfl, rfl⟩ | ⟨hmem, hlt, rfl⟩
          · -- nothing the whole pass looked at was closer
            exact .pure ⟨hm, .refl, le_rfl, fun j hj => hr.least j ((hedge j).mp hj)⟩
          · -- the next pass starts at a closer node, one link further
            have hfirst := (hedge _).mpr hmem
            have hid' := hc.edge_lt _ _ _ hfirst
            have hm' := hr.measured hm
            have hcard : (h.closer metric s q best').card < _ := card_closer_lt hlt hid' hm'
            refine (ih best' hid' hm' (by omega)).mono fun r hr => ?_
            exact ⟨hr.measured, .head hfirst hr.reached, hr.dist_le.trans hlt.le, hr.least⟩

theorem greedyUpper_yields (hc : h.Closed s) {best : Cand Score} (hid : best.id < h.nodes.length)
    (hm : Measured metric s q best) (l : Nat) :
    Yields (h.greedyUpper metric s q best l) (Descended h metric s q l best) := by
  apply greedyLoop_yields hc l _ best hid hm
  apply Nat.lt_succ_of_le
  calc (h.closer metric s q best).card
      ≤ (Finset.range h.nodes.length).card := Finset.card_filter_le _ _
    _ = h.nodes.length := Finset.card_range _

end HnswIndex

end ToyVdb
