import ToyVdb.Hnsw.Query

/-!
# The breadth of a search

A breadth that is never reached does not matter: two searches with room for every admitted node go the same
way until the results hold all of them, and from there on nothing can change the results any more, whether
or not a search is cut short.
-/

namespace ToyVdb

namespace HnswIndex

open Outcome

variable {Score : Type} {h : HnswIndex} {metric : Metric Score} {s : VectorStore} {q : Vec}
  {entries : List (Cand Score)} {ef ef' l fuel : Nat} {allowed : Option Bitset} {st : Layer Score}

/-- Every admitted node is among the results. -/
def Saturated (s : VectorStore) (allowed : Option Bitset) (st : Layer Score) : Prop :=
  ∀ i, s.admits allowed i = true → i ∈ st.res.map Cand.id

/-- As long as an admitted node is missing, there is room for it. -/
theorem LayerInv.room {pending : List Nat} (hinv : LayerInv h metric s q entries ef l allowed fuel pending st)
    {A : Finset Nat} (hA : ∀ i, s.admits allowed i = true → i ∈ A) (hsat : ¬ Saturated s allowed st) :
    st.res.length < A.card := by
  by_contra hfull
  have hsub : (st.res.map Cand.id).toFinset ⊆ A := by
    intro i hi
    obtain ⟨c, hc, rfl⟩ := List.mem_map.mp (List.mem_toFinset.mp hi)
    exact hA c.id (hinv.result c hc).admitted
  have hcard : (st.res.map Cand.id).toFinset.card = st.res.length := by
    rw [List.toFinset_card_of_nodup hinv.nodup, List.length_map]
  have hall := Finset.eq_of_subset_of_card_le hsub (hcard ▸ Nat.not_lt.mp hfull)
  exact hsat fun i hi => List.mem_toFinset.mp (hall ▸ hA i hi)

variable [LinearOrder Score]

/-! ### Nothing left to be found -/

theorem LayerInv.res_of_visit {e : Nat} {pending : List Nat} {st' : Layer Score}
    (hinv : LayerInv h metric s q entries ef l allowed fuel (e :: pending) st) (hsat : Saturated s allowed st)
    (hvisit : HnswIndex.visit metric s q ef allowed st e = .ok st') : st'.res = st.res := by
  cases visitStep_of_visit hvisit with
  | seen => rfl
  | far => rfl
  | navigated => rfl
  | joined htest _ hallow =>
      obtain ⟨c, hc, rfl⟩ := List.mem_map.mp (hsat e hallow)
      exact absurd (htest.seen_iff.mpr (hinv.res_visited c hc)) (by decide)

section Search

variable (hc : h.Closed s) (hentries : ∀ e ∈ entries, e.id < h.nodes.length)

include hc hentries

/-- Whatever the breadth, a search that has found everything returns just that. -/
theorem LayerInv.res_of_saturated (hinv : LayerInv h metric s q entries ef l allowed fuel [] st)
    (hsat : Saturated s allowed st) :
    Yields (layerLoop metric s h q ef l allowed fuel st) fun st' => st'.res = st.res := by
  have hloop : Yields (layerLoop metric s h q ef l allowed fuel st) fun st' =>
      Searched h metric s q entries ef l allowed st'.res st'.vis ∧ st'.res = st.res := by
    refine layerLoop_rule (P := fun _ st' => st'.res = st.res) hc hentries (fun _ hres _ => hres)
      (fun _ _ _ hres _ _ _ => hres) (fun _ _ _ _ hres _ => hres)
      (fun fuel e pending cur next hcur hres hvisit => ?_) fuel st hinv rfl
    have hcur_sat : Saturated s allowed cur := fun i hi => hres ▸ hsat i hi
    exact (hcur.res_of_visit hcur_sat hvisit).trans hres
  exact hloop.mono fun _ hst => hst.2

/-! ### Two breadths -/

/-- Two searches that started from the same state: in the same state, or both with everything there is. -/
structure Abreast (h : HnswIndex) (metric : Metric Score) (s : VectorStore) (q : Vec)
    (entries : List (Cand Score)) (ef ef' l : Nat) (allowed : Option Bitset) (fuel : Nat) (pending : List Nat)
    (st st' : Layer Score) : Prop where
  left : LayerInv h metric s q entries ef l allowed fuel pending st
  right : LayerInv h metric s q entries ef' l allowed fuel pending st'
  agree : st = st' ∨ Saturated s allowed st ∧ st'.res = st.res

omit [LinearOrder Score] hc hentries in
theorem Saturated.congr {st st' : Layer Score} (hsat : Saturated s allowed st) (hres : st'.res = st.res) :
    Saturated s allowed st' := fun i hi => hres ▸ hsat i hi

theorem res_agree_of_saturated {st st' : Layer Score}
    (hleft : LayerInv h metric s q entries ef l allowed fuel [] st)
    (hright : LayerInv h metric s q entries ef' l allowed fuel [] st') (hsat : Saturated s allowed st)
    (hres : st'.res = st.res) :
    ∃ a b, layerLoop metric s h q ef l allowed fuel st = .ok a ∧
      layerLoop metric s h q ef' l allowed fuel st' = .ok b ∧ a.res = b.res := by
  obtain ⟨a, ha, hares⟩ := hleft.res_of_saturated hc hentries hsat
  obtain ⟨b, hb, hbres⟩ := hright.res_of_saturated hc hentries (hsat.congr hres)
  exact ⟨a, b, ha, hb, hares.trans (hbres.trans hres).symm⟩

omit hc hentries in
/-- While both searches have room, a neighbour means the same to both. -/
theorem visit_eq_of_room (hroom : st.res.length < ef) (hroom' : st.res.length < ef') (e : Nat) :
    visit metric s q ef allowed st e = visit metric s q ef' allowed st e := by
  have hfits : ¬ st.res.length + 1 > ef := Nat.not_lt.mpr hroom
  have hfits' : ¬ st.res.length + 1 > ef' := Nat.not_lt.mpr hroom'
  unfold visit
  simp only [if_pos (Or.inl hroom), if_pos (Or.inl hroom'), PriorityQueue.length_push, if_neg hfits,
    if_neg hfits']

variable {A : Finset Nat} (hA : ∀ i, s.admits allowed i = true → i ∈ A) (hef : A.card ≤ ef)
  (hef' : A.card ≤ ef')

include hA hef hef'

theorem Abreast.visit {e : Nat} {pending : List Nat} {st st' : Layer Score}
    (habreast : Abreast h metric s q entries ef ef' l allowed fuel (e :: pending) st st') :
    ∃ a b, HnswIndex.visit metric s q ef allowed st e = .ok a ∧
      HnswIndex.visit metric s q ef' allowed st' e = .ok b ∧
      Abreast h metric s q entries ef ef' l allowed fuel pending a b := by
  obtain ⟨a, ha, hleft⟩ := habreast.left.visit hc hentries
  obtain ⟨b, hb, hright⟩ := habreast.right.visit hc hentries
  refine ⟨a, b, ha, hb, hleft, hright, ?_⟩
  by_cases hsat : Saturated s allowed st
  · have hres : st'.res = st.res := by
      rcases habreast.agree with rfl | ⟨-, hres⟩
      · rfl
      · exact hres
    have hares := habreast.left.res_of_visit hsat ha
    have hbres := habreast.right.res_of_visit (hsat.congr hres) hb
    exact .inr ⟨hsat.congr hares, hbres.trans (hres.trans hares.symm)⟩
  · have heq := habreast.agree.resolve_right fun hdone => hsat hdone.1
    subst heq
    have hroom := habreast.left.room hA hsat
    rw [visit_eq_of_room (hroom.trans_le hef) (hroom.trans_le hef') e] at ha
    exact .inl (Except.ok.inj (ha.symm.trans hb))

theorem Abreast.foldlM (pending : List Nat) {st st' : Layer Score}
    (habreast : Abreast h metric s q entries ef ef' l allowed fuel pending st st') :
    ∃ a b, pending.foldlM (HnswIndex.visit metric s q ef allowed) st = .ok a ∧
      pending.foldlM (HnswIndex.visit metric s q ef' allowed) st' = .ok b ∧
      Abreast h metric s q entries ef ef' l allowed fuel [] a b := by
  induction pending generalizing st st' with
  | nil => exact ⟨st, st', rfl, rfl, habreast⟩
  | cons e pending ih =>
      obtain ⟨a, b, ha, hb, hnext⟩ := habreast.visit hc hentries hA hef hef'
      rw [List.foldlM_cons, List.foldlM_cons, ha, hb]
      exact ih hnext

theorem layerLoop_agree (hleft : LayerInv h metric s q entries ef l allowed fuel [] st)
    (hright : LayerInv h metric s q entries ef' l allowed fuel [] st) :
    ∃ a b, layerLoop metric s h q ef l allowed fuel st = .ok a ∧
      layerLoop metric s h q ef' l allowed fuel st = .ok b ∧ a.res = b.res := by
  induction fuel generalizing st with
  | zero =>
      have hcand : st.cand = [] := List.length_eq_zero_iff.mp (by have hfuel := hleft.fuel_le; omega)
      exact ⟨st, st, layerLoop_nil hcand, layerLoop_nil hcand, rfl⟩
  | succ fuel ih =>
      by_cases hsat : Saturated s allowed st
      · exact res_agree_of_saturated hc hentries hleft hright hsat rfl
      have hroom := hleft.room hA hsat
      cases hcand : st.cand with
      | nil => exact ⟨st, st, layerLoop_nil hcand, layerLoop_nil hcand, rfl⟩
      | cons c rest =>
          -- neither search is full, so neither stops here
          have hid := (hleft.cand_found c (hcand ▸ List.mem_cons_self)).lt hc hentries
          have hgo : ¬ (st.res.length ≥ ef ∧ bound metric st.res < c.dist) := fun hstop =>
            absurd hstop.1 (Nat.not_le.mpr (hroom.trans_le hef))
          have hgo' : ¬ (st.res.length ≥ ef' ∧ bound metric st.res < c.dist) := fun hstop =>
            absurd hstop.1 (Nat.not_le.mpr (hroom.trans_le hef'))
          rw [layerLoop_round hcand hid, layerLoop_round hcand hid, if_neg hgo, if_neg hgo']
          have hpop : Abreast h metric s q entries ef ef' l allowed fuel (h.neighbors l c.id)
              { st with cand := rest } { st with cand := rest } :=
            ⟨hleft.pop hcand fun j => mem_neighbors, hright.pop hcand fun j => mem_neighbors, .inl rfl⟩
          obtain ⟨a, b, ha, hb, hnext⟩ := hpop.foldlM hc hentries hA hef hef'
          rw [ha, hb]
          rcases hnext.agree with rfl | ⟨hsat', hres⟩
          · exact ih hnext.left hnext.right
          · exact res_agree_of_saturated hc hentries hnext.left hnext.right hsat' hres

theorem searchLayer_agree (hnodup : (entries.map Cand.id).Nodup)
    (hmeasured : ∀ e ∈ entries, Measured metric s q e) {vis : Visited} (hwf : vis.Wf)
    (hstamps : h.nodes.length ≤ vis.stamp.length) :
    ∃ w vis₁ vis₂, h.searchLayer metric s q entries ef l allowed vis = .ok (w, vis₁) ∧
      h.searchLayer metric s q entries ef' l allowed vis = .ok (w, vis₂) := by
  have hseed : Yields (entries.foldlM (enter s allowed) ⟨[], [], vis.bump⟩)
      (EnterInv h s entries allowed []) :=
    enterAll_yields hentries hnodup hwf hstamps
  obtain ⟨st, henter, hinv⟩ := hseed
  obtain ⟨a, b, ha, hb, hres⟩ := layerLoop_agree hc hentries hA hef hef'
    (hinv.layerInv hmeasured) (hinv.layerInv hmeasured)
  refine ⟨a.res, a.vis, b.vis, ?_, ?_⟩
  · rw [searchLayer, henter]
    change (layerLoop metric s h q ef l allowed (entries.length + st.vis.stamp.length) st >>= _) = _
    rw [ha]
    rfl
  · rw [searchLayer, henter, hres]
    change (layerLoop metric s h q ef' l allowed (entries.length + st.vis.stamp.length) st >>= _) = _
    rw [hb]
    rfl

end Search

/-! ### Queries -/

theorem search_eq_of_room {params : HnswParams} (hinv : GraphInv params h)
    (hslots : h.nodes.length ≤ s.slotCount) {A : Finset Nat} (hA : ∀ i, s.admits allowed i = true → i ∈ A)
    {k : Nat} (hef : A.card ≤ max ef k) (hef' : A.card ≤ max ef' k) (query : Vec) :
    h.search metric s query k ⟨ef, allowed⟩ = h.search metric s query k ⟨ef', allowed⟩ := by
  by_cases hk : k = 0
  · rw [search, search, if_pos hk, if_pos hk]
  cases hep : h.entryPoint with
  | none => rw [search_empty hep, search_empty hep]
  | some ep =>
      obtain ⟨best, hbest, hlt, hmeasured⟩ := exists_descend metric query hinv hslots hep
      obtain ⟨w, vis₁, vis₂, hw, hw'⟩ := searchLayer_agree (l := 0) (hinv.toLinksInv.closed hslots)
        (List.forall_mem_singleton.mpr hlt) hA hef hef' (List.nodup_singleton _)
        (List.forall_mem_singleton.mpr hmeasured) (Visited.wf_ensure h.nodes.length)
        (Visited.length_ensure h.nodes.length).ge
      rw [search, search, if_neg hk, if_neg hk, hep]
      dsimp only
      rw [hbest]
      change (searchLayer metric s h query [best] (max ef k) 0 allowed _ >>= _) =
        (searchLayer metric s h query [best] (max ef' k) 0 allowed _ >>= _)
      rw [hw, hw']
      rfl

end HnswIndex

end ToyVdb
