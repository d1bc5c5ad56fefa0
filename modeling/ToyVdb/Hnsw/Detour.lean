import ToyVdb.Hnsw.Star

/-!
# A detour

On a star whose gate is not to be returned, a search with room for the near points and no more never passes
the gate. One with room for one more does, and finds the closest point behind it.
-/

namespace ToyVdb

namespace HnswIndex

open Outcome

/-- Every query starts at the first node, which is near. -/
abbrev Detour.start {Score : Type} [LT Score] {metric : Metric Score} (D : Detour metric) : Cand Score :=
  ⟨metric.distance D.query D.near, 0⟩

variable {Score : Type} [LinearOrder Score] {metric : Metric Score} {params : HnswParams}
  {s : VectorStore} {m n : Nat} {h : HnswIndex} {allowed : Option Bitset} (D : Detour metric)
  (hstar : Star params m n h) (hm : 0 < m) (hn : m + 1 < n) (hslots : n ≤ s.slotCount)
  (hpoints : ∀ i < n, s.get i = D.point m i) (hadmits : ∀ i < n, s.admits allowed i = true ↔ i ≠ m)

/-- A node that is not the gate is linked to nothing behind the gate if it is before it. -/
theorem Star.neighbors_le (hstar : Star params m n h) {i j : Nat} (hi : i < m) (hin : i < n)
    (hj : j ∈ h.neighbors 0 i) : j ≤ m := by
  rw [hstar.neighbors_eq hin, List.mem_append] at hj
  rcases hj with hj | hj
  · by_cases hzero : i = 0
    · rw [if_pos hzero] at hj
      exact absurd hj List.not_mem_nil
    · rw [if_neg hzero, parent, if_pos hi.le, List.mem_singleton] at hj
      exact hj ▸ Nat.zero_le m
  · obtain ⟨-, -, hparent⟩ := mem_children.mp hj
    by_contra hgt
    rw [parent, if_neg hgt] at hparent
    exact hi.ne hparent.symm

theorem Star.ahead_of_gate (hstar : Star params m n h) (hm : 0 < m) (hn : m + 1 < n) {c : Nat} (hc : c < m)
    {vis : Visited} (hfirst : vis.Has 0) {before after : List Nat}
    (hsplit : h.neighbors 0 c = before ++ m :: after)
    {i : Nat} (hi : i < m) : vis.Has i ∨ i ∈ before := by
  rw [hstar.neighbors_eq (by omega)] at hsplit
  have hgate : m ∈ (if c = 0 then [] else [parent m c]) ++ children m n c := by
    rw [hsplit]
    exact List.mem_append_right _ List.mem_cons_self
  by_cases hzero : c = 0
  · subst hzero
    rw [if_pos rfl, List.nil_append] at hsplit
    rcases Nat.eq_zero_or_pos i with rfl | hpos
    · exact .inl hfirst
    · have hmem : i ∈ before ++ m :: after := by
        rw [← hsplit]
        exact mem_children.mpr ⟨by omega, hpos, if_pos hi.le⟩
      have hsorted := pairwise_children m n 0
      rw [hsplit, List.pairwise_append] at hsorted
      rcases List.mem_append.mp hmem with hbefore | hafter
      · exact .inr hbefore
      · rcases List.mem_cons.mp hafter with rfl | hafter
        · exact absurd hi (Nat.lt_irrefl i)
        · exact absurd (List.rel_of_pairwise_cons hsorted.2.1 hafter) (Nat.lt_asymm hi)
  · rw [if_neg hzero, parent, if_pos hc.le, List.singleton_append, List.mem_cons] at hgate
    rcases hgate with rfl | hchild
    · exact absurd hm (Nat.lt_irrefl 0)
    · obtain ⟨-, -, hparent⟩ := mem_children.mp hchild
      rw [parent, if_pos le_rfl] at hparent
      exact absurd hparent.symm hzero

include hm hn hpoints in
theorem Detour.measured_start : Measured metric s D.query D.start := by
  rw [Measured, hpoints 0 (by omega), D.point_of_lt hm]

include hm hn hpoints hadmits in
/-- Once all near points were visited, a search with room for no more passes the gate over. -/
theorem gate_passed {entries : List (Cand Score)} {fuel : Nat} {pending : List Nat} {st st' : Layer Score}
    (hinv : LayerInv h metric s D.query entries m 0 allowed fuel (m :: pending) st)
    (hall : ∀ i < m, st.vis.Has i) (hres : ∀ c ∈ st.res, c.id < m)
    (hstep : VisitStep metric s D.query m allowed st m st') : st'.cand = st.cand ∧ st'.res = st.res := by
  have hfull : m ≤ st.res.length := by
    by_contra hroom
    have hsub : List.range m ⊆ st.res.map Cand.id := fun i hi => by
      have hi := List.mem_range.mp hi
      exact hinv.admitted (Nat.not_le.mp hroom) i (hall i hi) ((hadmits i (by omega)).mpr hi.ne)
    have hlen := (List.nodup_range.subperm hsub).length_le
    rw [List.length_range, List.length_map] at hlen
    exact hroom hlen
  have hbound : bound metric st.res = metric.distance D.query D.near := by
    cases hcons : st.res with
    | nil =>
        rw [hcons] at hfull
        exact absurd hfull (Nat.not_le.mpr hm)
    | cons top rest =>
        have htop : top ∈ st.res := hcons ▸ List.mem_cons_self
        have hid := hres top htop
        have hmeasured := (hinv.result top htop).measured
        rwa [Measured, hpoints _ (by omega), D.point_of_lt hid] at hmeasured
  apply hstep.eq_of_far hfull
  rw [hbound, hpoints m (by omega), D.point_gate]
  exact lt_asymm D.query_near

/-- Before the gate: what is behind it is out of sight, and the near points are looked at before it. -/
structure BeforeGate (m : Nat) (pending : List Nat) (st : Layer Score) : Prop where
  result : ∀ c ∈ st.res, c.id < m
  frontier : ∀ c ∈ st.cand, c.id < m
  pending_le : ∀ e ∈ pending, e ≤ m
  ahead : ∀ before after, pending = before ++ m :: after → ∀ i < m, st.vis.Has i ∨ i ∈ before

include hm hn hpoints hadmits in
theorem BeforeGate.visit {entries : List (Cand Score)} {fuel e : Nat} {pending : List Nat}
    {st st' : Layer Score} (hbefore : BeforeGate m (e :: pending) st)
    (hinv : LayerInv h metric s D.query entries m 0 allowed fuel (e :: pending) st)
    (hstep : VisitStep metric s D.query m allowed st e st') : BeforeGate m pending st' := by
  obtain ⟨he, hpending⟩ := List.forall_mem_cons.mp hbefore.pending_le
  have hahead : ∀ before after, pending = before ++ m :: after → ∀ i < m, st'.vis.Has i ∨ i ∈ before := by
    intro before after hsplit i hi
    have hold := hbefore.ahead (e :: before) after (by rw [hsplit]; rfl) i hi
    rw [List.mem_cons] at hold
    rw [hstep.has_iff]
    tauto
  rcases Nat.lt_or_eq_of_le he with hlt | rfl
  · exact ⟨hstep.forall_res (Q := (· < m)) hbefore.result fun _ => hlt,
      hstep.forall_cand (Q := (· < m)) hbefore.frontier hlt, hpending, hahead⟩
  · have hall : ∀ i < e, st.vis.Has i := fun i hi =>
      (hbefore.ahead [] pending rfl i hi).resolve_right List.not_mem_nil
    obtain ⟨hcand, hres⟩ := gate_passed D hm hn hpoints hadmits hinv hall hbefore.result hstep
    exact ⟨hres ▸ hbefore.result, hcand ▸ hbefore.frontier, hpending, hahead⟩

include hstar hm hn hslots hpoints hadmits

/-- With room for the near points and no more, a search returns only those. -/
theorem Star.searchLayer_narrow {vis : Visited} (hwf : vis.Wf) (hstamps : h.nodes.length ≤ vis.stamp.length) :
    Yields (h.searchLayer metric s D.query [D.start] m 0 allowed vis) fun r => ∀ c ∈ r.1, c.id < m := by
  have hlt : 0 < n := by omega
  refine (searchLayer_rule (P := BeforeGate m) (R := fun res _ => ∀ c ∈ res, c.id < m)
    (hstar.graph.toLinksInv.closed (hstar.length_eq ▸ hslots)) (hstar.length_eq ▸ hlt)
    (D.measured_start hm hn hpoints) ((hadmits 0 hlt).mpr hm.ne) hwf hstamps
    ?_ ?_ ?_ ?_ ?_).mono fun _ hr => hr.2
  · intro st hcand hres _
    refine ⟨?_, ?_, fun e he => absurd he List.not_mem_nil, fun before after hsplit => ?_⟩
    · rw [hres]
      exact List.forall_mem_singleton.mpr hm
    · rw [hcand]
      exact List.forall_mem_singleton.mpr hm
    · cases before <;> cases hsplit
  · exact fun st hst _ => hst.result
  · exact fun st c rest hst _ _ _ => hst.result
  · intro st c rest hentered hst hcons
    have hids := hst.frontier
    rw [hcons, List.forall_mem_cons] at hids
    refine ⟨hst.result, hids.2, fun e he => hstar.neighbors_le hids.1 (by omega) he,
      fun before after hsplit i hi => ?_⟩
    exact hstar.ahead_of_gate hm hn hids.1 hentered hsplit hi
  · exact fun fuel e pending st st' hinv hst hstep => hst.visit D hm hn hpoints hadmits hinv hstep

omit hslots hpoints hadmits in
theorem Star.ahead_of_goal {before after : List Nat} {e : Nat}
    (hsplit : h.neighbors 0 m = before ++ e :: after)
    (he : m < e) : e = m + 1 ∨ m + 1 ∈ before := by
  have hlist : h.neighbors 0 m = 0 :: children m n m := by
    rw [hstar.neighbors_eq (by omega), if_neg hm.ne', parent, if_pos le_rfl]
    rfl
  have hgoal : m + 1 ∈ before ++ e :: after := by
    rw [← hsplit, hlist]
    exact List.mem_cons_of_mem _ (mem_children.mpr ⟨hn, Nat.succ_pos m, if_neg (by omega)⟩)
  have hsorted : (before ++ e :: after).Pairwise (· < ·) := by
    rw [← hsplit, hlist, List.pairwise_cons]
    exact ⟨fun j hj => (mem_children.mp hj).2.1, pairwise_children m n m⟩
  rcases List.mem_append.mp hgoal with hbefore | hrest
  · exact .inr hbefore
  · rcases List.mem_cons.mp hrest with heq | hafter
    · exact .inl heq.symm
    · have hless := List.rel_of_pairwise_cons (List.pairwise_append.mp hsorted).2.1 hafter
      omega

omit hstar hm hn hslots hadmits in
theorem Detour.goal_closest {i : Nat} (hi : i < n) (hgate : i ≠ m)
    (hle : metric.distance D.query (s.get i) ≤ metric.distance D.query D.goal) : i = m + 1 := by
  by_contra hne
  apply absurd hle
  rw [not_le, hpoints i hi]
  rcases Nat.lt_or_ge i m with hlt | hge
  · rw [D.point_of_lt hlt]
    exact D.query_goal
  · rw [D.point_of_gt (by omega)]
    exact D.query_goal.trans D.query_near

omit hstar hm hn hslots hpoints hadmits in
/-- Before the goal was seen: nothing else from behind the gate was found, and the goal is looked at first. -/
structure BeforeGoal (m : Nat) (pending : List Nat) (st : Layer Score) : Prop where
  result : ∀ c ∈ st.res, c.id ≤ m
  frontier : ∀ c ∈ st.cand, c.id ≤ m
  ahead : ∀ before e after, pending = before ++ e :: after → m < e → e = m + 1 ∨ m + 1 ∈ before

omit hstar hm hn hslots hpoints hadmits in
theorem BeforeGoal.visit {ef e : Nat} {pending : List Nat} {st st' : Layer Score}
    (hbefore : BeforeGoal m (e :: pending) st) (hstep : VisitStep metric s D.query ef allowed st e st') :
    st'.vis.Has (m + 1) ∨ BeforeGoal m pending st' := by
  rcases Nat.lt_or_ge m e with hbehind | hle
  · have heq : e = m + 1 := (hbefore.ahead [] e pending rfl hbehind).resolve_right List.not_mem_nil
    exact .inl ((hstep.has_iff _).mpr (.inl heq.symm))
  · refine .inr ⟨hstep.forall_res (Q := (· ≤ m)) hbefore.result fun _ => hle,
      hstep.forall_cand (Q := (· ≤ m)) hbefore.frontier hle, fun before e' after hsplit he' => ?_⟩
    have hold := hbefore.ahead (e :: before) e' after (by rw [hsplit]; rfl) he'
    rw [List.mem_cons] at hold
    exact hold.imp_right fun hold => hold.resolve_left (by omega)

/-- A search that ends without having seen the goal has not found anything behind the gate. -/
theorem Star.searchLayer_yields {ef : Nat} {vis : Visited} (hwf : vis.Wf)
    (hstamps : h.nodes.length ≤ vis.stamp.length) :
    Yields (h.searchLayer metric s D.query [D.start] ef 0 allowed vis) fun r =>
      Searched h metric s D.query [D.start] ef 0 allowed r.1 r.2 ∧
        (r.2.Has (m + 1) ∨ ∀ c ∈ r.1, c.id ≤ m) := by
  have hlt : 0 < n := by omega
  refine searchLayer_rule (P := fun pending st => st.vis.Has (m + 1) ∨ BeforeGoal m pending st)
    (R := fun res vis => vis.Has (m + 1) ∨ ∀ c ∈ res, c.id ≤ m)
    (hstar.graph.toLinksInv.closed (hstar.length_eq ▸ hslots)) (hstar.length_eq ▸ hlt)
    (D.measured_start hm hn hpoints) ((hadmits 0 hlt).mpr hm.ne) hwf hstamps ?_ ?_ ?_ ?_ ?_
  · intro st hcand hres _
    refine .inr ⟨?_, ?_, fun before e after hsplit => ?_⟩
    · rw [hres]
      exact List.forall_mem_singleton.mpr hm.le
    · rw [hcand]
      exact List.forall_mem_singleton.mpr hm.le
    · cases before <;> cases hsplit
  · exact fun st hst _ => hst.imp_right fun hst => hst.result
  · exact fun st c rest hst _ _ _ => hst.imp_right fun hst => hst.result
  · intro st c rest _ hst hcons
    refine hst.imp_right fun hst => ?_
    have hids := hst.frontier
    rw [hcons, List.forall_mem_cons] at hids
    refine ⟨hst.result, hids.2, fun before e after hsplit he => ?_⟩
    rcases Nat.lt_or_eq_of_le hids.1 with hbefore | hgate
    · have hmem : e ∈ h.neighbors 0 c.id := hsplit ▸ List.mem_append_right _ List.mem_cons_self
      exact absurd (hstar.neighbors_le hbefore (by omega) hmem) (Nat.not_le.mpr he)
    · exact hstar.ahead_of_goal hm hn (hgate ▸ hsplit) he
  · rintro fuel e pending st st' - (hgoal | hst) hstep
    · exact .inl ((hstep.has_iff _).mpr (.inr hgoal))
    · exact hst.visit D hstep

theorem Star.goal_mem_of_has {ef : Nat} (hef : 1 ≤ ef) {vis vis' : Visited} (hwf : vis.Wf)
    (hstamps : h.nodes.length ≤ vis.stamp.length) {w : List (Cand Score)}
    (hsearch : h.searchLayer metric s D.query [D.start] ef 0 allowed vis = .ok (w, vis'))
    (hsearched : Searched h metric s D.query [D.start] ef 0 allowed w vis')
    (hgoal : vis'.Has (m + 1)) : m + 1 ∈ w.map Cand.id := by
  have hlt : 0 < n := by omega
  have hclosed := hstar.graph.toLinksInv.closed (hstar.length_eq ▸ hslots)
  have hentries : ∀ e ∈ [D.start], e.id < h.nodes.length :=
    List.forall_mem_singleton.mpr (hstar.length_eq ▸ hlt)
  obtain ⟨evaluated, hlogged⟩ := exists_searchLayerLogged hsearch
  have hroom : [D.start].length ≤ ef := hef
  obtain ⟨cand, hkept⟩ := kept_of_searchLayerLogged hef hroom hentries
    (List.nodup_singleton _) hwf hstamps hlogged
  have hlooked : (⟨metric.distance D.query (s.get (m + 1)), m + 1⟩ : Cand Score) ∈
      lookedAt metric s D.query [D.start] allowed evaluated := by
    have hevaluated := (hkept.has_iff (m + 1)).mp hgoal
    refine List.mem_filter.mpr ⟨List.mem_append_right _ (List.mem_map.mpr ⟨m + 1, ?_, rfl⟩), ?_⟩
    · exact (List.mem_cons.mp hevaluated).resolve_left (Nat.succ_ne_zero m)
    · exact (hadmits (m + 1) hn).mpr (Nat.succ_ne_self m)
  obtain ⟨dropped, hperm, hle⟩ := hkept.keeps.split
  rcases List.mem_append.mp (hperm.subset hlooked) with hmem | hdropped
  · exact List.mem_map_of_mem hmem
  · -- what is returned is no farther, so it is the goal
    have hlen : w.length = min ef _ := hkept.keeps.length_eq
    have hpos : 0 < w.length := hlen ▸ Nat.lt_min.mpr ⟨hef, List.length_pos_of_mem hlooked⟩
    obtain ⟨c, hc⟩ := List.exists_mem_of_length_pos hpos
    have hresult := hsearched.result c hc
    have hid : c.id < n := hstar.length_eq ▸ hresult.found.lt hclosed hentries
    have hcloser : metric.distance D.query (s.get c.id) ≤ metric.distance D.query (s.get (m + 1)) :=
      hresult.measured ▸ hle c hc _ hdropped
    rw [hpoints (m + 1) hn, D.point_goal] at hcloser
    have heq := D.goal_closest hpoints hid ((hadmits c.id hid).mp hresult.admitted) hcloser
    exact heq ▸ List.mem_map_of_mem hc

theorem Star.searchLayer_wide {ef : Nat} (hef : m < ef) {vis : Visited} (hwf : vis.Wf)
    (hstamps : h.nodes.length ≤ vis.stamp.length) :
    Yields (h.searchLayer metric s D.query [D.start] ef 0 allowed vis) fun r =>
      Searched h metric s D.query [D.start] ef 0 allowed r.1 r.2 ∧
        m + 1 ∈ r.1.map Cand.id := by
  have hlt : 0 < n := by omega
  have hsearch : Yields (h.searchLayer metric s D.query [D.start] ef 0 allowed vis) _ :=
    hstar.searchLayer_yields D hm hn hslots hpoints hadmits hwf hstamps
  obtain ⟨⟨w, vis'⟩, hsearch, hsearched, hgoal | hnear⟩ := hsearch
  · exact ⟨_, hsearch, hsearched, hstar.goal_mem_of_has D hm hn hslots hpoints hadmits (by omega) hwf hstamps
      hsearch hsearched hgoal⟩
  refine ⟨_, hsearch, hsearched, ?_⟩
  -- without anything from behind the gate there is room left, so nothing is missing
  have hroom : w.length < ef := by
    have hlen : (w.map Cand.id).length ≤ m := by
      refine length_le_of_forall_lt hsearched.nodup fun i hi => ?_
      obtain ⟨c, hc, rfl⟩ := List.mem_map.mp hi
      have hle : c.id ≤ m := hnear c hc
      have hne := (hadmits c.id (by omega)).mp (hsearched.result c hc).admitted
      exact lt_of_le_of_ne hle hne
    rw [List.length_map] at hlen
    exact hlen.trans_lt hef
  apply hsearched.complete hroom (m + 1) _ ((hadmits (m + 1) hn).mpr (Nat.succ_ne_self m))
  refine ⟨_, List.mem_singleton_self _, .tail (.single (b := m) ?_) ?_⟩
  · apply mem_neighbors.mp
    rw [hstar.neighbors_eq hlt, if_pos rfl, List.nil_append]
    exact mem_children.mpr ⟨by omega, hm, if_pos le_rfl⟩
  · apply mem_neighbors.mp
    rw [hstar.neighbors_eq (by omega)]
    exact List.mem_append_right _ (mem_children.mpr ⟨hn, Nat.succ_pos m, if_neg (by omega)⟩)

omit hadmits in
theorem Star.search_eq {k : Nat} (hk : k ≠ 0) (ef : Nat) :
    h.search metric s D.query k ⟨ef, allowed⟩ =
      (h.searchLayer metric s D.query [D.start] (max ef k) 0 allowed
        (Visited.ensure {} n)).map fun r => hits k r.1 := by
  have hlt : 0 < n := by omega
  have hdescend : h.descend metric s D.query 0 h.maxLevel.toNat 1 =
      .ok D.start := by
    rw [hstar.maxLevel_eq, descend, distTo_ok (hlt.trans_le hslots), hpoints 0 hlt, D.point_of_lt hm]
    rfl
  rw [search, if_neg hk, hstar.entry_eq]
  dsimp only
  rw [hdescend, hstar.length_eq]
  change (searchLayer metric s h D.query _ (max ef k) 0 allowed _ >>= _) = _
  cases searchLayer metric s h D.query [D.start] (max ef k) 0 allowed
    (Visited.ensure {} n) <;> rfl

omit hstar hm hslots hadmits in
theorem exists_hit_behind {w : List (Cand Score)} (hw : ∀ c ∈ w, Measured metric s D.query c)
    (hgoal : m + 1 ∈ w.map Cand.id) {k : Nat} (hk : k ≠ 0) : ∃ hit ∈ hits k w, m ≤ hit.id := by
  by_contra hnear
  push Not at hnear
  obtain ⟨goal, hmem, hid⟩ := List.mem_map.mp hgoal
  have hout : goal.id ∉ (hits k w).map SearchResult.id := by
    intro hin
    obtain ⟨hit, hhit, heq⟩ := List.mem_map.mp hin
    have hless := hnear hit hhit
    omega
  have hpos : 0 < (hits k w).length := by
    rw [hits, List.length_map, List.length_take, (sortByDist_perm w).length_eq]
    exact Nat.lt_min.mpr ⟨Nat.pos_of_ne_zero hk, List.length_pos_of_mem hmem⟩
  obtain ⟨hit, hhit⟩ := List.exists_mem_of_length_pos hpos
  have hless := hnear hit hhit
  obtain ⟨c, hc, hcid, hscore⟩ := mem_hits hhit
  have hle := hits_le hmem hout hhit
  rw [hscore, hw c hc, hw goal hmem, ← hcid, hid, hpoints _ (by omega), D.point_of_lt hless,
    hpoints (m + 1) hn, D.point_goal] at hle
  exact absurd D.query_goal (not_lt.mpr hle)

/-- With room for the near points and no more, a query does not return what it returns with room for more. -/
theorem Star.search_ne {k ef ef' : Nat} (hk : k ≠ 0) (hnarrow : max ef k = m) (hwide : m < max ef' k) :
    h.search metric s D.query k ⟨ef, allowed⟩ ≠ h.search metric s D.query k ⟨ef', allowed⟩ := by
  have hstamps : h.nodes.length ≤ (Visited.ensure {} n).stamp.length := by
    rw [Visited.length_ensure, hstar.length_eq]
  have hlayer : Yields (h.searchLayer metric s D.query [D.start] m 0 allowed (Visited.ensure {} n)) _ :=
    hstar.searchLayer_narrow D hm hn hslots hpoints hadmits (Visited.wf_ensure n) hstamps
  have hlayer' : Yields (h.searchLayer metric s D.query [D.start] (max ef' k) 0 allowed
      (Visited.ensure {} n)) _ :=
    hstar.searchLayer_wide D hm hn hslots hpoints hadmits hwide (Visited.wf_ensure n) hstamps
  obtain ⟨⟨w, vis⟩, hw, hbefore⟩ := hlayer
  obtain ⟨⟨w', vis'⟩, hw', hsearched, hgoal⟩ := hlayer'
  rw [hstar.search_eq D hm hn hslots hpoints hk, hstar.search_eq D hm hn hslots hpoints hk, hnarrow, hw, hw']
  intro heq
  have hhits : hits k w = hits k w' := Except.ok.inj heq
  obtain ⟨hit, hhit, hge⟩ := exists_hit_behind D hn hpoints
    (fun c hc => (hsearched.result c hc).measured) hgoal hk
  obtain ⟨c, hc, hid, -⟩ := mem_hits (hhits ▸ hhit)
  exact absurd (hid ▸ hbefore c hc) (Nat.not_lt.mpr hge)

end HnswIndex

end ToyVdb
