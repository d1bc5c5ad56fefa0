import ToyVdb.Hnsw.Greedy

/-!
# Layer search

The specification of the best-first search of one layer, for every graph whose links stay inside it. The
search ends; it returns admitted nodes without repetition and with their true distances; and if it returns
fewer than it was allowed to, it returns everything admitted that the layer's links reach from its entries.

The last part rests on an invariant that only speaks about searches whose result set is not full: nothing
was evicted or skipped so far, so what was visited is either still on the frontier or has all its
neighbours visited.
-/

namespace ToyVdb

namespace HnswIndex

open Outcome Relation

variable {Score : Type}

/-! ### The invariant -/

section Layer

variable (h : HnswIndex) (metric : Metric Score) (s : VectorStore) (q : Vec) (entries : List (Cand Score))
  (ef l : Nat) (allowed : Option Bitset)

/-- What the layer's links reach from the entries. -/
def FromEntries (i : Nat) : Prop := ∃ e ∈ entries, h.Reaches l e.id i

/-- A result: an admitted node found from the entries, with its true distance. -/
structure Result (c : Cand Score) : Prop where
  measured : Measured metric s q c
  admitted : s.admits allowed c.id = true
  found : h.FromEntries entries l c.id

/-- The loop invariant, with the neighbours of the current node that are still to be looked at and a bound
on the rounds left. -/
structure LayerInv (fuel : Nat) (pending : List Nat) (st : Layer Score) : Prop where
  wf : st.vis.Wf
  stamps : h.nodes.length ≤ st.vis.stamp.length
  entered : ∀ e ∈ entries, st.vis.Has e.id
  cand_found : ∀ c ∈ st.cand, h.FromEntries entries l c.id
  result : ∀ c ∈ st.res, h.Result metric s q entries l allowed c
  res_visited : ∀ c ∈ st.res, st.vis.Has c.id
  nodup : (st.res.map Cand.id).Nodup
  length_le : st.res.length ≤ max ef entries.length
  pending_found : ∀ j ∈ pending, h.FromEntries entries l j
  admitted : st.res.length < ef → ∀ i, st.vis.Has i → s.admits allowed i = true → i ∈ st.res.map Cand.id
  closed : st.res.length < ef → ∀ i j, st.vis.Has i → h.Edge l i j →
    st.vis.Has j ∨ i ∈ st.cand.map Cand.id ∨ j ∈ pending
  fuel_le : st.cand.length + st.vis.unvisited ≤ fuel

end Layer

variable {h : HnswIndex} {metric : Metric Score} {s : VectorStore} {q : Vec} {entries : List (Cand Score)}
  {ef l fuel : Nat} {allowed : Option Bitset} {st : Layer Score}

theorem FromEntries.lt (hc : h.Closed s) (hentries : ∀ e ∈ entries, e.id < h.nodes.length) {i : Nat}
    (hi : h.FromEntries entries l i) : i < h.nodes.length := by
  obtain ⟨e, he, hreach⟩ := hi
  exact hc.lt_of_reaches (hentries e he) hreach

theorem FromEntries.edge {i j : Nat} (hi : h.FromEntries entries l i) (hedge : h.Edge l i j) :
    h.FromEntries entries l j := by
  obtain ⟨e, he, hreach⟩ := hi
  exact ⟨e, he, hreach.tail hedge⟩

/-! ### One neighbour -/

/-- What looking at a neighbour may do to the frontier and the results. While the results are not full,
nothing is lost, and a neighbour not seen before joins the frontier and, if admitted, the results. -/
structure Looked (s : VectorStore) (ef : Nat) (allowed : Option Bitset) (st : Layer Score) (e : Nat)
    (seen : Bool) (st' : Layer Score) : Prop where
  cand_sub : ∀ c ∈ st'.cand, c ∈ st.cand ∨ c.id = e
  full : st'.res.length < ef → st.res.length < ef
  res_kept : st'.res.length < ef → ∀ c ∈ st.res, c ∈ st'.res
  cand_kept : st'.res.length < ef → ∀ c ∈ st.cand, c ∈ st'.cand
  joined : st'.res.length < ef → seen = false → e ∈ st'.cand.map Cand.id
  admitted : st'.res.length < ef → seen = false → s.admits allowed e = true → e ∈ st'.res.map Cand.id
  cand_length : st'.cand.length ≤ st.cand.length + (if seen then 0 else 1)

theorem LayerInv.looked {e : Nat} {seen : Bool} {pending : List Nat} {st' : Layer Score}
    (hinv : LayerInv h metric s q entries ef l allowed fuel (e :: pending) st)
    (htest : st.vis.Tested e seen st'.vis) (hlook : Looked s ef allowed st e seen st')
    (hresult : ∀ c ∈ st'.res, h.Result metric s q entries l allowed c)
    (hvisited : ∀ c ∈ st'.res, st'.vis.Has c.id) (hnodup : (st'.res.map Cand.id).Nodup)
    (hlength : st'.res.length ≤ max ef entries.length) :
    LayerInv h metric s q entries ef l allowed fuel pending st' where
  wf := htest.wf hinv.wf
  stamps := htest.length_eq ▸ hinv.stamps
  entered e' he' := (htest.has_iff _).mpr (.inr (hinv.entered e' he'))
  cand_found c hc := by
    rcases hlook.cand_sub c hc with hc | hc
    · exact hinv.cand_found c hc
    · exact hc ▸ hinv.pending_found e List.mem_cons_self
  result := hresult
  res_visited := hvisited
  nodup := hnodup
  length_le := hlength
  pending_found j hj := hinv.pending_found j (List.mem_cons_of_mem _ hj)
  admitted hlt i hi hallow := by
    have hold : st.vis.Has i → i ∈ st'.res.map Cand.id := fun hi => by
      obtain ⟨c, hc, rfl⟩ := List.mem_map.mp (hinv.admitted (hlook.full hlt) i hi hallow)
      exact List.mem_map_of_mem (hlook.res_kept hlt c hc)
    rcases (htest.has_iff i).mp hi with rfl | hi
    · cases hseen : seen with
      | true => exact hold (htest.seen_iff.mp hseen)
      | false => exact hlook.admitted hlt hseen hallow
    · exact hold hi
  closed hlt i j hi hedge := by
    have hold : st.vis.Has i → st'.vis.Has j ∨ i ∈ st'.cand.map Cand.id ∨ j ∈ pending := fun hi => by
      rcases hinv.closed (hlook.full hlt) i j hi hedge with hj | hcand | hpending
      · exact .inl ((htest.has_iff j).mpr (.inr hj))
      · obtain ⟨c, hc, rfl⟩ := List.mem_map.mp hcand
        exact .inr (.inl (List.mem_map_of_mem (hlook.cand_kept hlt c hc)))
      · rcases List.mem_cons.mp hpending with rfl | hpending
        · exact .inl ((htest.has_iff _).mpr (.inl rfl))
        · exact .inr (.inr hpending)
    rcases (htest.has_iff i).mp hi with rfl | hi
    · cases hseen : seen with
      | true => exact hold (htest.seen_iff.mp hseen)
      | false => exact .inr (.inl (hlook.joined hlt hseen))
    · exact hold hi
  fuel_le := by
    have hfuel := hinv.fuel_le
    have hunvisited := htest.unvisited_eq
    have hcand := hlook.cand_length
    omega

theorem looked_unchanged {e : Nat} {seen : Bool} (vis : Visited)
    (hseen : seen = true ∨ ¬ st.res.length < ef) :
    Looked s ef allowed st e seen { st with vis := vis } where
  cand_sub _ hc := .inl hc
  full hlt := hlt
  res_kept _ _ hc := hc
  cand_kept _ _ hc := hc
  joined hlt hnew := absurd hlt (hseen.resolve_left (by rw [hnew]; decide))
  admitted hlt hnew _ := absurd hlt (hseen.resolve_left (by rw [hnew]; decide))
  cand_length := Nat.le_add_right _ _

theorem looked_navigated {e : Nat} {d : Score} {cand : List (Cand Score)} (vis : Visited)
    (hcand : cand.Perm (⟨d, e⟩ :: st.cand)) (hallow : ¬ s.admits allowed e = true) :
    Looked s ef allowed st e false ⟨cand, st.res, vis⟩ where
  cand_sub c hc := (List.mem_cons.mp (hcand.subset hc)).symm.imp_right fun hc => by rw [hc]
  full hlt := hlt
  res_kept _ _ hc := hc
  cand_kept _ _ hc := hcand.symm.subset (List.mem_cons_of_mem _ hc)
  joined _ _ := List.mem_map.mpr ⟨⟨d, e⟩, hcand.symm.subset List.mem_cons_self, rfl⟩
  admitted _ _ hallow' := absurd hallow' hallow
  cand_length := hcand.length_eq.le

/-- The results with a newcomer, the farthest evicted if they are too many. -/
def evict (ef : Nat) (res : List (Cand Score)) : List (Cand Score) :=
  if res.length > ef then res.tail else res

theorem evict_sublist (ef : Nat) (res : List (Cand Score)) : (evict ef res).Sublist res := by
  unfold evict
  split_ifs
  · exact List.tail_sublist res
  · exact List.Sublist.refl res

theorem evict_eq_of_length_lt {res : List (Cand Score)} (hlt : (evict ef res).length < ef) :
    evict ef res = res := by
  unfold evict at hlt ⊢
  split_ifs at hlt ⊢ with hfull
  · rw [List.length_tail] at hlt
    omega
  · rfl

/-- What looking at a neighbour can do. -/
inductive VisitStep [LT Score] [DecidableLT Score] (metric : Metric Score) (s : VectorStore)
    (q : Vec) (ef : Nat)
    (allowed : Option Bitset) (st : Layer Score) (e : Nat) : Layer Score → Prop
  | seen {vis : Visited} (htest : st.vis.Tested e true vis) :
      VisitStep metric s q ef allowed st e { st with vis := vis }
  | far {vis : Visited} (htest : st.vis.Tested e false vis)
      (hfar : ¬ (st.res.length < ef ∨ metric.distance q (s.get e) < bound metric st.res)) :
      VisitStep metric s q ef allowed st e { st with vis := vis }
  | navigated {vis : Visited} (htest : st.vis.Tested e false vis)
      (hbetter : st.res.length < ef ∨ metric.distance q (s.get e) < bound metric st.res)
      (hallow : ¬ s.admits allowed e = true) :
      VisitStep metric s q ef allowed st e
        ⟨PriorityQueue.push nearOnTop st.cand ⟨metric.distance q (s.get e), e⟩, st.res, vis⟩
  | joined {vis : Visited} (htest : st.vis.Tested e false vis)
      (hbetter : st.res.length < ef ∨ metric.distance q (s.get e) < bound metric st.res)
      (hallow : s.admits allowed e = true) :
      VisitStep metric s q ef allowed st e
        ⟨PriorityQueue.push nearOnTop st.cand ⟨metric.distance q (s.get e), e⟩,
          evict ef (PriorityQueue.push farOnTop st.res ⟨metric.distance q (s.get e), e⟩), vis⟩

theorem visitStep_of_visit [LinearOrder Score] {e : Nat} {st' : Layer Score}
    (hvisit : visit metric s q ef allowed st e = .ok st') : VisitStep metric s q ef allowed st e st' := by
  obtain ⟨⟨seen, vis⟩, htest, hvisit⟩ := exists_of_bind_eq_ok hvisit
  have htested := Visited.tested_of_testSet htest
  cases seen with
  | true =>
      cases hvisit
      exact .seen htested
  | false =>
      obtain ⟨d, hdist, hvisit⟩ := exists_of_bind_eq_ok hvisit
      have hd := dist_of_distTo hdist
      subst hd
      by_cases hbetter : st.res.length < ef ∨ metric.distance q (s.get e) < bound metric st.res
      · rw [if_pos hbetter] at hvisit
        by_cases hallow : s.admits allowed e = true
        · rw [if_pos hallow] at hvisit
          cases hvisit
          exact .joined htested hbetter hallow
        · rw [if_neg hallow] at hvisit
          cases hvisit
          exact .navigated htested hbetter hallow
      · rw [if_neg hbetter] at hvisit
        cases hvisit
        exact .far htested hbetter

section VisitStep

variable [LT Score] [DecidableLT Score] {e : Nat} {st' : Layer Score}
  (hstep : VisitStep metric s q ef allowed st e st')

include hstep

theorem VisitStep.has_iff (i : Nat) : st'.vis.Has i ↔ i = e ∨ st.vis.Has i := by
  cases hstep with
  | seen htest => exact htest.has_iff i
  | far htest => exact htest.has_iff i
  | navigated htest => exact htest.has_iff i
  | joined htest => exact htest.has_iff i

theorem VisitStep.forall_cand {Q : Nat → Prop} (hcand : ∀ c ∈ st.cand, Q c.id) (he : Q e) :
    ∀ c ∈ st'.cand, Q c.id := by
  have hpush : ∀ c ∈ PriorityQueue.push nearOnTop st.cand ⟨metric.distance q (s.get e), e⟩, Q c.id := by
    intro c hc
    rcases (PriorityQueue.mem_push _).mp hc with rfl | hc
    · exact he
    · exact hcand c hc
  cases hstep with
  | seen => exact hcand
  | far => exact hcand
  | navigated => exact hpush
  | joined => exact hpush

theorem VisitStep.forall_res {Q : Nat → Prop} (hres : ∀ c ∈ st.res, Q c.id)
    (he : s.admits allowed e = true → Q e) : ∀ c ∈ st'.res, Q c.id := by
  cases hstep with
  | seen => exact hres
  | far => exact hres
  | navigated => exact hres
  | joined _ _ hallow =>
      intro c hc
      rcases (PriorityQueue.mem_push _).mp ((evict_sublist ef _).subset hc) with rfl | hc
      · exact he hallow
      · exact hres c hc

/-- If the results are full and the node is no closer than their farthest, it is passed over. -/
theorem VisitStep.eq_of_far (hfull : ef ≤ st.res.length)
    (hfar : ¬ metric.distance q (s.get e) < bound metric st.res) : st'.cand = st.cand ∧ st'.res = st.res := by
  have hworse : ¬ (st.res.length < ef ∨ metric.distance q (s.get e) < bound metric st.res) :=
    not_or.mpr ⟨Nat.not_lt.mpr hfull, hfar⟩
  cases hstep with
  | seen => exact ⟨rfl, rfl⟩
  | far => exact ⟨rfl, rfl⟩
  | navigated _ hbetter => exact absurd hbetter hworse
  | joined _ hbetter => exact absurd hbetter hworse

end VisitStep

theorem looked_admitted {e : Nat} {d : Score} {cand res : List (Cand Score)} (vis : Visited)
    (hcand : cand.Perm (⟨d, e⟩ :: st.cand)) (hres : res.Perm (⟨d, e⟩ :: st.res)) :
    Looked s ef allowed st e false ⟨cand, evict ef res, vis⟩ where
  cand_sub c hc := (List.mem_cons.mp (hcand.subset hc)).symm.imp_right fun hc => by rw [hc]
  full hlt := by
    have hlen := hres.length_eq
    change (evict ef res).length < ef at hlt
    rw [evict_eq_of_length_lt hlt, hlen, List.length_cons] at hlt
    omega
  res_kept hlt c hc := by
    change c ∈ evict ef res
    rw [evict_eq_of_length_lt hlt]
    exact hres.symm.subset (List.mem_cons_of_mem _ hc)
  cand_kept _ _ hc := hcand.symm.subset (List.mem_cons_of_mem _ hc)
  joined _ _ := List.mem_map.mpr ⟨⟨d, e⟩, hcand.symm.subset List.mem_cons_self, rfl⟩
  admitted hlt _ _ := by
    change e ∈ (evict ef res).map Cand.id
    rw [evict_eq_of_length_lt hlt]
    exact List.mem_map.mpr ⟨⟨d, e⟩, hres.symm.subset List.mem_cons_self, rfl⟩
  cand_length := hcand.length_eq.le

/-! ### Rounds -/

/-- The neighbours of a node at a layer; none if it does not have the layer. -/
def neighbors (h : HnswIndex) (l i : Nat) : List Nat := (h.links? i l).getD []

theorem mem_neighbors {i j : Nat} : j ∈ h.neighbors l i ↔ h.Edge l i j := by
  unfold neighbors Edge
  cases h.links? i l with
  | none => simp
  | some ls => simp

theorem layerLoop_nil [LT Score] [DecidableLT Score] (hcand : st.cand = []) :
    layerLoop metric s h q ef l allowed fuel st = .ok st := by
  cases fuel with
  | zero =>
      rw [layerLoop, hcand]
      rfl
  | succ fuel =>
      rw [layerLoop, hcand]
      rfl

theorem layerLoop_round [LT Score] [DecidableLT Score] {c : Cand Score} {rest : List (Cand Score)}
    (hcand : st.cand = c :: rest) (hid : c.id < h.nodes.length) :
    layerLoop metric s h q ef l allowed (fuel + 1) st =
      if st.res.length ≥ ef ∧ bound metric st.res < c.dist then pure { st with cand := rest }
      else (h.neighbors l c.id).foldlM (visit metric s q ef allowed) { st with cand := rest } >>=
        layerLoop metric s h q ef l allowed fuel := by
  rw [layerLoop, hcand]
  dsimp only
  rw [node_ok hid, neighbors, links?_eq hid]
  congr 1
  dsimp only [bind, Except.bind]
  cases h.nodes[c.id].links[l]? with
  | none => rfl
  | some links => rfl

theorem LayerInv.pop {c : Cand Score} {rest : List (Cand Score)} {pending : List Nat}
    (hinv : LayerInv h metric s q entries ef l allowed (fuel + 1) [] st) (hcand : st.cand = c :: rest)
    (hpending : ∀ j, j ∈ pending ↔ h.Edge l c.id j) :
    LayerInv h metric s q entries ef l allowed fuel pending { st with cand := rest } where
  wf := hinv.wf
  stamps := hinv.stamps
  entered := hinv.entered
  cand_found c' hc' := hinv.cand_found c' (hcand ▸ List.mem_cons_of_mem _ hc')
  result := hinv.result
  res_visited := hinv.res_visited
  nodup := hinv.nodup
  length_le := hinv.length_le
  pending_found j hj := (hinv.cand_found c (hcand ▸ List.mem_cons_self)).edge ((hpending j).mp hj)
  admitted := hinv.admitted
  closed hlt i j hi hedge := by
    rcases hinv.closed hlt i j hi hedge with hj | hmem | hnil
    · exact .inl hj
    · rw [hcand, List.map_cons] at hmem
      rcases List.mem_cons.mp hmem with rfl | hmem
      · exact .inr (.inr ((hpending j).mpr hedge))
      · exact .inr (.inl hmem)
    · exact absurd hnil List.not_mem_nil
  fuel_le := by
    have hfuel := hinv.fuel_le
    rw [hcand, List.length_cons] at hfuel
    change rest.length + st.vis.unvisited ≤ fuel
    omega

theorem LayerInv.has_of_fromEntries {i : Nat} (hinv : LayerInv h metric s q entries ef l allowed fuel [] st)
    (hcand : st.cand = []) (hlt : st.res.length < ef) (hi : h.FromEntries entries l i) : st.vis.Has i := by
  obtain ⟨e, he, hreach⟩ := hi
  induction hreach with
  | refl => exact hinv.entered e he
  | tail _ hedge ih =>
      rcases hinv.closed hlt _ _ ih hedge with hj | hmem | hnil
      · exact hj
      · rw [hcand] at hmem
        exact absurd hmem List.not_mem_nil
      · exact absurd hnil List.not_mem_nil

/-- What a search of a layer delivers. -/
structure Searched (h : HnswIndex) (metric : Metric Score) (s : VectorStore) (q : Vec)
    (entries : List (Cand Score))
    (ef l : Nat) (allowed : Option Bitset) (out : List (Cand Score)) (vis : Visited) : Prop where
  wf : vis.Wf
  stamps : h.nodes.length ≤ vis.stamp.length
  result : ∀ c ∈ out, h.Result metric s q entries l allowed c
  nodup : (out.map Cand.id).Nodup
  length_le : out.length ≤ max ef entries.length
  complete : out.length < ef → ∀ i, h.FromEntries entries l i → s.admits allowed i = true →
    i ∈ out.map Cand.id

theorem LayerInv.searched (hinv : LayerInv h metric s q entries ef l allowed fuel [] st)
    (hdone : st.cand = [] ∨ ¬ st.res.length < ef) :
    Searched h metric s q entries ef l allowed st.res st.vis where
  wf := hinv.wf
  stamps := hinv.stamps
  result := hinv.result
  nodup := hinv.nodup
  length_le := hinv.length_le
  complete hlt i hi hallow :=
    hinv.admitted hlt i (hinv.has_of_fromEntries (hdone.resolve_right (not_not.mpr hlt)) hlt hi) hallow

theorem LayerInv.newcomer [LinearOrder Score] {e : Nat} {pending : List Nat} {vis : Visited}
    (hinv : LayerInv h metric s q entries ef l allowed fuel (e :: pending) st)
    (htest : st.vis.Tested e false vis)
    (hallow : s.admits allowed e = true) :
    LayerInv h metric s q entries ef l allowed fuel pending
      ⟨PriorityQueue.push nearOnTop st.cand ⟨metric.distance q (s.get e), e⟩,
        evict ef (PriorityQueue.push farOnTop st.res ⟨metric.distance q (s.get e), e⟩), vis⟩ := by
  have hres := PriorityQueue.push_perm farOnTop st.res ⟨metric.distance q (s.get e), e⟩
  have hcand := PriorityQueue.push_perm nearOnTop st.cand ⟨metric.distance q (s.get e), e⟩
  have hsub : ∀ c ∈ evict ef (PriorityQueue.push farOnTop st.res ⟨metric.distance q (s.get e), e⟩),
      c = ⟨metric.distance q (s.get e), e⟩ ∨ c ∈ st.res := fun c hc =>
    List.mem_cons.mp (hres.subset ((evict_sublist ef _).subset hc))
  have hnew : e ∉ st.res.map Cand.id := by
    intro hmem
    obtain ⟨c, hc, rfl⟩ := List.mem_map.mp hmem
    exact absurd (htest.seen_iff.mpr (hinv.res_visited c hc)) (by decide)
  refine hinv.looked htest (looked_admitted vis hcand hres) (fun c hc => ?_) (fun c hc => ?_) ?_ ?_
  · rcases hsub c hc with rfl | hc
    · exact ⟨rfl, hallow, hinv.pending_found e List.mem_cons_self⟩
    · exact hinv.result c hc
  · rcases hsub c hc with rfl | hc
    · exact (htest.has_iff _).mpr (.inl rfl)
    · exact (htest.has_iff _).mpr (.inr (hinv.res_visited c hc))
  · refine List.Nodup.sublist ((evict_sublist ef _).map Cand.id) ?_
    rw [(hres.map Cand.id).nodup_iff]
    exact List.nodup_cons.mpr ⟨hnew, hinv.nodup⟩
  · have hlen := hinv.length_le
    show (evict ef _).length ≤ _
    unfold evict
    split_ifs with hfull
    · rw [List.length_tail, PriorityQueue.length_push]
      omega
    · exact (Nat.le_of_not_lt hfull).trans (Nat.le_max_left _ _)

section Search

variable [LinearOrder Score] (hc : h.Closed s) (hentries : ∀ e ∈ entries, e.id < h.nodes.length)

include hc hentries

theorem LayerInv.visit {e : Nat} {pending : List Nat}
    (hinv : LayerInv h metric s q entries ef l allowed fuel (e :: pending) st) :
    Yields (visit metric s q ef allowed st e) (LayerInv h metric s q entries ef l allowed fuel pending) := by
  have hfound := hinv.pending_found e List.mem_cons_self
  have he := hfound.lt hc hentries
  unfold HnswIndex.visit
  refine (Visited.testSet_yields (Nat.lt_of_lt_of_le he hinv.stamps)).bind fun r htest => ?_
  obtain ⟨seen, vis⟩ := r
  dsimp only at htest
  have hkept : ∀ c ∈ st.res, vis.Has c.id := fun c hc => (htest.has_iff _).mpr (.inr (hinv.res_visited c hc))
  cases seen with
  | true =>
      exact .pure (hinv.looked htest
        (looked_unchanged vis (.inl rfl)) hinv.result hkept hinv.nodup hinv.length_le)
  | false =>
      simp only [Bool.false_eq_true, if_false, distTo_ok (Nat.lt_of_lt_of_le he hc.nodes_le)]
      by_cases hbetter : st.res.length < ef ∨ metric.distance q (s.get e) < bound metric st.res
      case neg =>
        refine .bind (.ok rfl) fun d hd => ?_
        subst hd
        rw [if_neg hbetter]
        exact .pure (hinv.looked htest (looked_unchanged vis (.inr fun hlt => hbetter (.inl hlt))) hinv.result
          hkept hinv.nodup hinv.length_le)
      refine .bind (.ok rfl) fun d hd => ?_
      subst hd
      rw [if_pos hbetter]
      by_cases hallow : s.admits allowed e = true
      · rw [if_pos hallow]
        exact .pure (hinv.newcomer htest hallow)
      · rw [if_neg hallow]
        exact .pure (hinv.looked htest
          (looked_navigated vis (PriorityQueue.push_perm nearOnTop st.cand _) hallow) hinv.result hkept
          hinv.nodup hinv.length_le)

/-- The loop rule: an invariant with the neighbours that are still to be looked at, and what it leaves behind
when the frontier is empty or too far away. -/
theorem layerLoop_rule {P : List Nat → Layer Score → Prop} {R : Layer Score → Prop}
    (hnil : ∀ st, P [] st → st.cand = [] → R st)
    (hstop : ∀ st c rest, P [] st → st.cand = c :: rest → ef ≤ st.res.length → bound metric st.res < c.dist →
      R { st with cand := rest })
    (hpop : ∀ st c rest, (∀ e ∈ entries, st.vis.Has e.id) → P [] st → st.cand = c :: rest →
      P (h.neighbors l c.id) { st with cand := rest })
    (hvisit : ∀ fuel e pending st st', LayerInv h metric s q entries ef l allowed fuel (e :: pending) st →
      P (e :: pending) st → HnswIndex.visit metric s q ef allowed st e = .ok st' → P pending st') :
    ∀ (fuel : Nat) (st : Layer Score), LayerInv h metric s q entries ef l allowed fuel [] st → P [] st →
      Yields (layerLoop metric s h q ef l allowed fuel st) fun st' =>
        Searched h metric s q entries ef l allowed st'.res st'.vis ∧ R st' := by
  intro fuel
  induction fuel with
  | zero =>
      intro st hinv hP
      have hcand : st.cand = [] := List.length_eq_zero_iff.mp (by have hfuel := hinv.fuel_le; omega)
      rw [layerLoop_nil hcand]
      exact .ok ⟨hinv.searched (.inl hcand), hnil st hP hcand⟩
  | succ fuel ih =>
      intro st hinv hP
      cases hcand : st.cand with
      | nil =>
          rw [layerLoop_nil hcand]
          exact .ok ⟨hinv.searched (.inl hcand), hnil st hP hcand⟩
      | cons c rest =>
          rw [layerLoop_round hcand ((hinv.cand_found c (hcand ▸ List.mem_cons_self)).lt hc hentries)]
          by_cases hdone : st.res.length ≥ ef ∧ bound metric st.res < c.dist
          · rw [if_pos hdone]
            exact .pure ⟨hinv.searched (.inr (Nat.not_lt.mpr hdone.1)),
              hstop st c rest hP hcand hdone.1 hdone.2⟩
          · rw [if_neg hdone]
            let Inv : List Nat → Layer Score → Prop := fun pending st =>
              LayerInv h metric s q entries ef l allowed fuel pending st ∧ P pending st
            have hstep : ∀ e pending st, Inv (e :: pending) st →
                Yields (HnswIndex.visit metric s q ef allowed st e) (Inv pending) := by
              rintro e pending st ⟨hinv, hP⟩
              obtain ⟨st', hst', hinv'⟩ := hinv.visit hc hentries
              exact ⟨st', hst', hinv', hvisit fuel e pending st st' hinv hP hst'⟩
            have hstart : Inv (h.neighbors l c.id) { st with cand := rest } :=
              ⟨hinv.pop hcand fun j => mem_neighbors, hpop st c rest hinv.entered hP hcand⟩
            refine (Yields.foldlM hstep _ _ hstart).bind ?_
            exact fun st' hst' => ih st' hst'.1 hst'.2

theorem layerLoop_yields (fuel : Nat) (st : Layer Score)
    (hinv : LayerInv h metric s q entries ef l allowed fuel [] st) :
    Yields (layerLoop metric s h q ef l allowed fuel st) fun st' =>
      Searched h metric s q entries ef l allowed st'.res st'.vis := by
  have hloop : Yields (layerLoop metric s h q ef l allowed fuel st) fun st' =>
      Searched h metric s q entries ef l allowed st'.res st'.vis ∧ True :=
    layerLoop_rule (P := fun _ _ => True) hc hentries (fun _ _ _ => trivial) (fun _ _ _ _ _ _ _ => trivial)
      (fun _ _ _ _ _ _ => trivial) (fun _ _ _ _ _ _ _ _ => trivial) fuel st hinv trivial
  exact hloop.mono fun _ hst => hst.1

end Search

/-! ### The entries -/

/-- The invariant of seeding, with the entries still to come: what is visited is what is on the frontier,
and what is admitted of it is the result set. -/
structure EnterInv (h : HnswIndex) (s : VectorStore) (entries : List (Cand Score)) (allowed : Option Bitset)
    (rest : List (Cand Score)) (st : Layer Score) : Prop where
  wf : st.vis.Wf
  stamps : h.nodes.length ≤ st.vis.stamp.length
  has_iff : ∀ i, st.vis.Has i ↔ i ∈ st.cand.map Cand.id
  split : (st.cand ++ rest).Perm entries
  res_iff : ∀ c, c ∈ st.res ↔ c ∈ st.cand ∧ s.admits allowed c.id = true
  nodup : (st.res.map Cand.id).Nodup
  rest_nodup : (rest.map Cand.id).Nodup
  fresh : ∀ e ∈ rest, e.id ∉ st.cand.map Cand.id
  length_le : st.res.length ≤ st.cand.length

theorem enterInv_start {vis : Visited} (hwf : vis.Wf) (hstamps : h.nodes.length ≤ vis.stamp.length)
    (hnodup : (entries.map Cand.id).Nodup) : EnterInv h s entries allowed entries ⟨[], [], vis.bump⟩ where
  wf := Visited.wf_bump hwf
  stamps := (Visited.length_bump vis).symm ▸ hstamps
  has_iff i := ⟨fun hi => absurd hi (Visited.not_has_bump hwf i), fun hi => absurd hi List.not_mem_nil⟩
  split := List.Perm.refl entries
  res_iff c := by simp
  nodup := List.nodup_nil
  rest_nodup := hnodup
  fresh e _ := List.not_mem_nil
  length_le := Nat.le_refl 0

theorem EnterInv.enter [LinearOrder Score] {e : Cand Score} {rest : List (Cand Score)}
    (hinv : EnterInv h s entries allowed (e :: rest) st) (he : e.id < h.nodes.length) :
    Yields (enter s allowed st e) (EnterInv h s entries allowed rest) := by
  unfold HnswIndex.enter
  refine (Visited.testSet_yields (Nat.lt_of_lt_of_le he hinv.stamps)).bind fun r htest => ?_
  obtain ⟨seen, vis⟩ := r
  have hcand := PriorityQueue.push_perm nearOnTop st.cand e
  have hres := PriorityQueue.push_perm farOnTop st.res e
  obtain ⟨hnew, hrest⟩ := List.nodup_cons.mp hinv.rest_nodup
  have hfresh := hinv.fresh e List.mem_cons_self
  have hout : e.id ∉ st.res.map Cand.id := by
    intro hmem
    obtain ⟨c, hc, hid⟩ := List.mem_map.mp hmem
    exact hfresh (hid ▸ List.mem_map_of_mem ((hinv.res_iff c).mp hc).1)
  refine .pure ⟨htest.wf hinv.wf, htest.length_eq ▸ hinv.stamps, fun i => ?_, ?_, fun c => ?_, ?_,
    hrest, ?_, ?_⟩
  · rw [htest.has_iff, hinv.has_iff, (hcand.map Cand.id).mem_iff, List.map_cons, List.mem_cons]
  · exact (hcand.append_right rest).trans (List.perm_middle.symm.trans hinv.split)
  · rw [hcand.mem_iff, List.mem_cons]
    by_cases hallow : s.admits allowed e.id = true
    · rw [if_pos hallow, hres.mem_iff, List.mem_cons, hinv.res_iff, or_and_right]
      exact or_congr_left ⟨fun heq => ⟨heq, heq ▸ hallow⟩, fun h => h.1⟩
    · rw [if_neg hallow, hinv.res_iff, or_and_right]
      exact ⟨.inr, fun h => h.resolve_left fun h' => hallow (h'.1 ▸ h'.2)⟩
  · by_cases hallow : s.admits allowed e.id = true
    · rw [if_pos hallow, (hres.map Cand.id).nodup_iff]
      exact List.nodup_cons.mpr ⟨hout, hinv.nodup⟩
    · rw [if_neg hallow]
      exact hinv.nodup
  · intro e' he' hmem
    rw [(hcand.map Cand.id).mem_iff, List.map_cons, List.mem_cons] at hmem
    rcases hmem with hid | hmem
    · exact hnew (hid ▸ List.mem_map_of_mem he')
    · exact hinv.fresh e' (List.mem_cons_of_mem _ he') hmem
  · have hlen := hinv.length_le
    by_cases hallow : s.admits allowed e.id = true
    · rw [if_pos hallow, PriorityQueue.length_push, PriorityQueue.length_push]
      omega
    · rw [if_neg hallow, PriorityQueue.length_push]
      exact Nat.le_succ_of_le hlen

theorem EnterInv.layerInv (hinv : EnterInv h s entries allowed [] st)
    (hmeasured : ∀ e ∈ entries, Measured metric s q e) :
    LayerInv h metric s q entries ef l allowed (entries.length + st.vis.stamp.length) [] st := by
  have hperm : st.cand.Perm entries := by simpa using hinv.split
  have hentry : ∀ c ∈ st.res, c ∈ entries ∧ s.admits allowed c.id = true := fun c hc =>
    ((hinv.res_iff c).mp hc).imp_left fun hc => hperm.subset hc
  refine ⟨hinv.wf, hinv.stamps, fun e he => ?_, fun c hc => ?_, fun c hc => ?_, fun c hc => ?_,
    hinv.nodup, ?_,
    fun j hj => absurd hj List.not_mem_nil, fun _ i hi hallow => ?_, fun _ i j hi _ => ?_, ?_⟩
  · exact (hinv.has_iff e.id).mpr (List.mem_map_of_mem (hperm.symm.subset he))
  · exact ⟨c, hperm.subset hc, .refl⟩
  · obtain ⟨hc, hallow⟩ := hentry c hc
    exact ⟨hmeasured c hc, hallow, c, hc, .refl⟩
  · exact (hinv.has_iff c.id).mpr (List.mem_map_of_mem ((hinv.res_iff c).mp hc).1)
  · exact (hperm.length_eq ▸ hinv.length_le).trans (Nat.le_max_right _ _)
  · obtain ⟨c, hc, rfl⟩ := List.mem_map.mp ((hinv.has_iff i).mp hi)
    exact List.mem_map_of_mem ((hinv.res_iff c).mpr ⟨hc, hallow⟩)
  · exact .inr (.inl ((hinv.has_iff i).mp hi))
  · have hunvisited := st.vis.unvisited_le
    have hlen := hperm.length_eq
    omega

theorem EnterInv.single {best : Cand Score} (hinv : EnterInv h s [best] allowed [] st) :
    st.cand = [best] ∧ (s.admits allowed best.id = true → st.res = [best]) ∧
      ∀ i, st.vis.Has i ↔ i = best.id := by
  have hcand : st.cand = [best] := by
    have hperm : st.cand.Perm [best] := by simpa using hinv.split
    exact List.perm_singleton.mp hperm
  refine ⟨hcand, fun hallow => ?_, fun i => ?_⟩
  · have hres : ∀ c, c ∈ st.res ↔ c = best := fun c => by
      rw [hinv.res_iff, hcand, List.mem_singleton]
      exact ⟨fun hc => hc.1, fun heq => ⟨heq, heq ▸ hallow⟩⟩
    have hlen : st.res.length ≤ 1 := by simpa [hcand] using hinv.length_le
    exact List.eq_replicate_iff.mpr
      ⟨Nat.le_antisymm hlen (List.length_pos_of_mem ((hres best).mpr rfl)), fun c hc => (hres c).mp hc⟩
  · rw [hinv.has_iff, hcand, List.map_singleton, List.mem_singleton]

theorem enterAll_yields [LinearOrder Score] (hentries : ∀ e ∈ entries, e.id < h.nodes.length)
    (hnodup : (entries.map Cand.id).Nodup) {vis : Visited} (hwf : vis.Wf)
    (hstamps : h.nodes.length ≤ vis.stamp.length) :
    Yields (entries.foldlM (enter s allowed) ⟨[], [], vis.bump⟩) (EnterInv h s entries allowed []) := by
  have hstart : EnterInv h s entries allowed entries ⟨[], [], vis.bump⟩ := enterInv_start hwf hstamps hnodup
  refine Yields.foldlM (fun e rest st hinv => ?_) entries _ hstart
  exact hinv.enter (hentries e (hinv.split.subset (List.mem_append_right _ List.mem_cons_self)))

/-- The rule of the whole search from a single entry. -/
theorem searchLayer_rule [LinearOrder Score] {best : Cand Score} {P : List Nat → Layer Score → Prop}
    {R : List (Cand Score) → Visited → Prop} (hc : h.Closed s) (hbest : best.id < h.nodes.length)
    (hmeasured : Measured metric s q best) (hallow : s.admits allowed best.id = true) {vis : Visited}
    (hwf : vis.Wf) (hstamps : h.nodes.length ≤ vis.stamp.length)
    (hstart : ∀ st, st.cand = [best] → st.res = [best] → (∀ i, st.vis.Has i ↔ i = best.id) → P [] st)
    (hnil : ∀ st, P [] st → st.cand = [] → R st.res st.vis)
    (hstop : ∀ st c rest, P [] st → st.cand = c :: rest → ef ≤ st.res.length → bound metric st.res < c.dist →
      R st.res st.vis)
    (hpop : ∀ st c rest, st.vis.Has best.id → P [] st → st.cand = c :: rest →
      P (h.neighbors l c.id) { st with cand := rest })
    (hvisit : ∀ fuel e pending st st', LayerInv h metric s q [best] ef l allowed fuel (e :: pending) st →
      P (e :: pending) st → VisitStep metric s q ef allowed st e st' → P pending st') :
    Yields (h.searchLayer metric s q [best] ef l allowed vis) fun r =>
      Searched h metric s q [best] ef l allowed r.1 r.2 ∧ R r.1 r.2 := by
  have hentries : ∀ e ∈ [best], e.id < h.nodes.length := List.forall_mem_singleton.mpr hbest
  unfold searchLayer
  refine (enterAll_yields hentries (List.nodup_singleton _) hwf hstamps).bind fun st hst => ?_
  obtain ⟨hcand, hres, hhas⟩ := hst.single
  have hloop := layerLoop_rule (R := fun st => R st.res st.vis) hc hentries hnil hstop
    (fun st c rest hentered => hpop st c rest (hentered best (List.mem_singleton_self best)))
    (fun fuel e pending st st' hinv hP hst' => hvisit fuel e pending st st' hinv hP (visitStep_of_visit hst'))
    _ st (hst.layerInv (List.forall_mem_singleton.mpr hmeasured)) (hstart st hcand (hres hallow) hhas)
  exact hloop.bind fun st' hst' => .pure hst'

theorem searchLayer_yields [LinearOrder Score] (hc : h.Closed s)
    (hentries : ∀ e ∈ entries, e.id < h.nodes.length)
    (hnodup : (entries.map Cand.id).Nodup) (hmeasured : ∀ e ∈ entries, Measured metric s q e) {vis : Visited}
    (hwf : vis.Wf) (hstamps : h.nodes.length ≤ vis.stamp.length) :
    Yields (h.searchLayer metric s q entries ef l allowed vis) fun r =>
      Searched h metric s q entries ef l allowed r.1 r.2 := by
  unfold searchLayer
  refine (enterAll_yields hentries hnodup hwf hstamps).bind fun st hst => ?_
  refine (layerLoop_yields hc hentries _ st (hst.layerInv hmeasured)).bind fun st' hst' => ?_
  exact .pure hst'

end HnswIndex

end ToyVdb
