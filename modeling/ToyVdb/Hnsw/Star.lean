import ToyVdb.Hnsw.Exploration

/-!
# A star with a gate

A graph on which the breadth of a search matters, with any number of nodes on either side. Points near the
query form a star; one more ray of it is the gate, a farther point, and the closest point of all is linked to
the gate alone. Inserting the points one after the other builds it.
-/

namespace ToyVdb

namespace HnswIndex

open Outcome

variable {Score : Type}

/-! ### The points -/

/-- Where the points are. -/
structure Detour [LT Score] (metric : Metric Score) where
  near : Vec
  gate : Vec
  goal : Vec
  query : Vec
  goal_gate : metric.distance goal gate < metric.distance goal near
  gate_gate : metric.distance gate gate < metric.distance gate near
  gate_goal : ¬ metric.distance gate goal < metric.distance gate gate
  query_goal : metric.distance query goal < metric.distance query near
  query_near : metric.distance query near < metric.distance query gate

/-- The order in which they are inserted: near points, the gate, the goal, and more points at the gate. -/
def Detour.point [LT Score] {metric : Metric Score} (D : Detour metric) (m i : Nat) : Vec :=
  if i < m then D.near else if i = m + 1 then D.goal else D.gate

section Point

variable [LT Score] {metric : Metric Score} (D : Detour metric) {m i : Nat}

theorem Detour.point_of_lt (hi : i < m) : D.point m i = D.near := if_pos hi

theorem Detour.point_gate : D.point m m = D.gate := by
  rw [point, if_neg (Nat.lt_irrefl m), if_neg (Nat.lt_succ_self m).ne]

theorem Detour.point_goal : D.point m (m + 1) = D.goal := by
  rw [point, if_neg (by omega), if_pos rfl]

theorem Detour.point_of_gt (hi : m + 1 < i) : D.point m i = D.gate := by
  rw [point, if_neg (by omega), if_neg (by omega)]

end Point

/-! ### The graph -/

/-- The node that a node was linked to when it was inserted. -/
def parent (m i : Nat) : Nat := if i ≤ m then 0 else m

/-- The nodes that were linked to a node since, with n nodes in all. -/
def children (m n i : Nat) : List Nat := (List.range n).filter fun j => 0 < j ∧ parent m j = i

theorem mem_children {m n i j : Nat} : j ∈ children m n i ↔ j < n ∧ 0 < j ∧ parent m j = i := by
  simp [children]

theorem children_succ {m n : Nat} (hn : 0 < n) (i : Nat) :
    children m (n + 1) i = children m n i ++ if parent m n = i then [n] else [] := by
  rw [children, List.range_succ, List.filter_append, List.filter_singleton]
  congr 1
  by_cases hi : parent m n = i
  · simp [hi, hn]
  · simp [hi]

theorem pairwise_children (m n i : Nat) : (children m n i).Pairwise (· < ·) := List.pairwise_lt_range.filter _

theorem parent_lt {m i : Nat} (hi : 0 < i) : parent m i < i := by
  unfold parent
  split_ifs
  · exact hi
  · omega

theorem children_self (m n : Nat) : children m n n = [] := by
  apply List.eq_nil_iff_forall_not_mem.mpr
  intro j hj
  obtain ⟨hlt, hpos, hparent⟩ := mem_children.mp hj
  have hless := parent_lt (m := m) hpos
  omega

theorem length_le_of_forall_lt {n : Nat} {l : List Nat} (hnodup : l.Nodup) (hlt : ∀ i ∈ l, i < n) :
    l.length ≤ n := by
  have hsub : l ⊆ List.range n := fun i hi => List.mem_range.mpr (hlt i hi)
  have hlen := (hnodup.subperm hsub).length_le
  rwa [List.length_range] at hlen

/-- One level, entered at the first node, with the links as they were made. -/
structure Star (params : HnswParams) (m n : Nat) (h : HnswIndex) : Prop where
  graph : GraphInv params h
  length_eq : h.nodes.length = n
  entry_eq : h.entryPoint = some 0
  maxLevel_eq : h.maxLevel = 0
  links_eq : ∀ i < n, h.links? i 0 = some ((if i = 0 then [] else [parent m i]) ++ children m n i)

/-! ### One more node -/

section Insert

variable [LinearOrder Score] {metric : Metric Score} {params : HnswParams} {s : VectorStore} {m n : Nat}
  {h : HnswIndex}

theorem Star.lt_of_edge (hstar : Star params m n h) {i j : Nat} (hedge : h.Edge 0 i j) : j < n := by
  obtain ⟨lv, hlv, -⟩ := hstar.graph.edge_level 0 i j hedge
  exact hstar.length_eq ▸ lt_of_level? hlv

theorem Star.length_links_le (hstar : Star params m n h) {i : Nat} {ls : List Nat}
    (hls : h.links? i 0 = some ls) : ls.length ≤ n :=
  length_le_of_forall_lt (hstar.graph.nodup i 0 ls hls) fun _ hj => hstar.lt_of_edge ⟨ls, hls, hj⟩

/-- With room in the lists, linking a node to its parent appends it there, and nothing else. -/
theorem Star.linked {g g' : HnswIndex} (hstar : Star params m n h) (hn : 0 < n) (hM : n < 2 * params.M)
    (hg : ∀ i < n, g.links? i 0 = h.links? i 0)
    (hlinked : Linked g g' n 0 [parent m n] (maxLinks params 0)) :
    ∀ i < n + 1, g'.links? i 0 = some ((if i = 0 then [] else [parent m i]) ++ children m (n + 1) i) := by
  intro i hi
  rw [children_succ hn]
  rcases Nat.lt_succ_iff_lt_or_eq.mp hi with hlt | rfl
  · by_cases hparent : parent m n = i
    · subst hparent
      obtain ⟨ls, ls', hls, hls', hpruned⟩ := hlinked.neighbor (parent m n) (List.mem_singleton_self _)
      rw [hg _ hlt] at hls
      have hroom : (ls ++ [n]).length ≤ maxLinks params 0 := by
        have hle := hstar.length_links_le hls
        rw [List.length_append, List.length_singleton, maxLinks, if_pos rfl]
        omega
      rw [hstar.links_eq _ hlt] at hls
      rw [hls', hpruned.eq_of_le hroom, ← Option.some.inj hls, if_pos rfl, List.append_assoc]
    · have hother : ¬ ((0 : Nat) = 0 ∧ (i = n ∨ i ∈ [parent m n])) := by
        rintro ⟨-, rfl | hmem⟩
        · exact Nat.lt_irrefl _ hlt
        · exact hparent (List.mem_singleton.mp hmem).symm
      rw [hlinked.other i 0 hother, hg i hlt, hstar.links_eq i hlt, if_neg hparent, List.append_nil]
  · rw [hlinked.self, if_neg (by omega), children_self, if_neg (parent_lt hn).ne, List.append_nil,
      List.append_nil]

theorem selectNeighbors_single {c : Cand Score} (hc : c.id < s.slotCount) {M : Nat} (hM : 0 < M) :
    selectNeighbors metric s [c] M = .ok [c] := by
  have hroom : ¬ ([] : List (Cand Score)).length ≥ M := Nat.not_le.mpr hM
  rw [selectNeighbors, sortByDist, List.insertionSort_cons, List.insertionSort_nil,
    List.orderedInsert_nil, selectLoop,
    if_neg hroom, VectorStore.access_ok hc]
  rfl

/-- On a single level, inserting is linking the new node on it, with the search entering at the
entry point. -/
theorem exists_linkLayer_of_add (hinv : GraphInv params h) {ep : Nat} (hep : h.entryPoint = some ep)
    (hmax : h.maxLevel = 0) (hlevels : ∀ i, params.levels i = 0) (hslots : h.nodes.length < s.slotCount)
    (hin : ep < s.slotCount) {g : HnswIndex} (hadd : h.add metric s params h.nodes.length = .ok g) :
    ∃ g' entries vis, linkLayer metric s params (s.get h.nodes.length) h.nodes.length
        (h.placed params, [⟨metric.distance (s.get h.nodes.length) (s.get ep), ep⟩],
          Visited.ensure {} (h.placed params).nodes.length) 0 = .ok (g', entries, vis) ∧
      g = if (0 : Int) > g'.maxLevel then
        { g' with maxLevel := 0, entryPoint := some h.nodes.length } else g' := by
  have hnotbuilt : (h.reserve h.nodes.length).built[h.nodes.length]? = some false := by
    simp [reserve, hinv.built_eq]
  have hkeep : ((h.reserve h.nodes.length).place params h.nodes.length).entryPoint = some ep := hep
  have hkeep' : ((h.reserve h.nodes.length).place params h.nodes.length).maxLevel = 0 := hmax
  rw [add, if_pos (Nat.lt_succ_self _)] at hadd
  simp only [hnotbuilt, VectorStore.access_ok hslots] at hadd
  obtain ⟨q, hq, hadd⟩ := exists_of_bind_eq_ok hadd
  cases hq
  rw [hkeep] at hadd
  obtain ⟨best, hbest, hloop⟩ := exists_of_bind_eq_ok hadd
  obtain ⟨⟨g', entries, vis⟩, hlink, hentry⟩ := exists_of_bind_eq_ok hloop
  rw [hkeep', hlevels, descend, distTo_ok hin] at hbest
  rw [hkeep', hlevels] at hlink
  cases hbest
  refine ⟨g', entries, vis, ?_, ?_⟩
  · obtain ⟨st, hst, hlink⟩ := exists_of_bind_eq_ok hlink
    cases hlink
    exact hst
  · rw [hlevels] at hentry
    exact (Except.ok.inj hentry).symm

theorem linkLayer_yields_of_single {g : HnswIndex} {q : Vec} {entries : List (Cand Score)} {c : Cand Score}
    {vis vis' : Visited} {id lc : Nat}
    (hsearch : g.searchLayer metric s q entries params.efConstruction lc none vis = .ok ([c], vis'))
    (hself : g.links? id lc = some []) (hne : c.id ≠ id) (hM : 0 < params.M) (hid : id < s.slotCount)
    (hc : c.id < s.slotCount) {ls : List Nat} (hls : g.links? c.id lc = some ls)
    (hin : ∀ x ∈ ls, x < s.slotCount) :
    Yields (linkLayer metric s params q id (g, entries, vis) lc) fun r =>
      Linked g r.1 id lc [c.id] (maxLinks params lc) := by
  unfold linkLayer
  dsimp only
  rw [hsearch]
  refine .bind (.ok rfl) fun r hr => ?_
  subst hr
  rw [selectNeighbors_single hc hM]
  refine .bind (.ok rfl) fun neighbors hneighbors => ?_
  subst hneighbors
  have hfresh : id ∉ [c].map Cand.id := fun hmem => hne (List.mem_singleton.mp hmem).symm
  have hsome : ∀ nb ∈ [c], (g.links? nb.id lc).isSome := List.forall_mem_singleton.mpr (by rw [hls]; rfl)
  refine (connectAll_yields hself [c] (List.nodup_singleton _) hfresh hsome).bind fun g₁ hjoined => ?_
  have hslots : ∀ nb ∈ [c], ∀ ls', g.links? nb.id lc = some ls' → ∀ x ∈ ls', x < s.slotCount :=
    List.forall_mem_singleton.mpr fun ls' hls' => Option.some.inj (hls.symm.trans hls') ▸ hin
  have hpruned : Yields (List.foldlM (fun g nb => g.prune metric s nb.id lc (maxLinks params lc))
      g₁ [c]) _ :=
    hjoined.pruneAll (List.nodup_singleton _) hid (List.forall_mem_singleton.mpr hc) hslots
  exact hpruned.bind fun g₂ hlinked => .pure hlinked

/-- If the search for its neighbours finds just its parent, a new node is linked to that. -/
theorem Star.add (hstar : Star params m n h) (hn : 0 < n) (hlevels : ∀ i, params.levels i = 0)
    (hM : n < 2 * params.M) (hslots : n < s.slotCount)
    (hsearch : Yields ((h.placed params).searchLayer metric s (s.get n)
      [⟨metric.distance (s.get n) (s.get 0), 0⟩] params.efConstruction 0 none
      (Visited.ensure {} (n + 1))) fun r => ∃ d, r.1 = [⟨d, parent m n⟩]) :
    Yields (h.add metric s params n) (Star params m (n + 1)) := by
  have hlength := hstar.length_eq
  subst hlength
  have hadded : Yields (h.add metric s params h.nodes.length) (Added params s h) :=
    hstar.graph.add_new_yields hslots
  obtain ⟨g, hadd, hadded⟩ := hadded
  obtain ⟨g', entries, vis, hlink, hg⟩ := exists_linkLayer_of_add hstar.graph hstar.entry_eq hstar.maxLevel_eq
    hlevels hslots (hn.trans hslots) hadd
  have hplaced : (h.placed params).nodes.length = h.nodes.length + 1 := by
    rw [nodes_placed, List.length_append, List.length_singleton]
  have hsame : ∀ i < h.nodes.length, (h.placed params).links? i 0 = h.links? i 0 :=
    fun i hi => links?_placed_of_lt hi 0
  have hparent : parent m h.nodes.length < h.nodes.length := parent_lt hn
  have hls := hstar.links_eq _ hparent
  obtain ⟨⟨w, vis'⟩, hw, d, rfl⟩ := hsearch
  rw [← hplaced] at hw
  have hlinked : Yields (linkLayer metric s params (s.get h.nodes.length) h.nodes.length _ 0) _ :=
    linkLayer_yields_of_single hw (hstar.graph.toLinksInv.unlinked.empty 0 (Nat.zero_le _)) hparent.ne
      (by omega) hslots (hparent.trans hslots) ((hsame _ hparent).trans hls)
      (fun x hx => (hstar.lt_of_edge ⟨_, hls, hx⟩).trans hslots)
  obtain ⟨r, hr, hlinked⟩ := hlinked
  cases hlink.symm.trans hr
  have hmax : g'.maxLevel = 0 := hlinked.frame.maxLevel_eq.trans hstar.maxLevel_eq
  rw [if_neg (by rw [hmax]; decide)] at hg
  subst hg
  exact ⟨g, hadd, hadded.graph, hadded.length_eq, hlinked.frame.entryPoint_eq.trans hstar.entry_eq, hmax,
    hstar.linked hn hM hsame hlinked⟩

omit [LinearOrder Score] in
theorem star_first [LT Score] [DecidableLT Score] (hempty : GraphInv params {})
    (hlevels : ∀ i, params.levels i = 0) (m : Nat) (hslots : 0 < s.slotCount) :
    Yields (({} : HnswIndex).add metric s params 0) (Star params m 1) := by
  have hadded : Added params s {} _ := hempty.first rfl
  refine ⟨_, ?_, hadded.graph, hadded.length_eq, rfl, ?_, fun i hi => ?_⟩
  · change (s.access 0 >>= fun _ => pure _ : Except Error HnswIndex) = _
    rw [VectorStore.access_ok hslots]
    rfl
  · change ((params.levels 0 : Nat) : Int) = 0
    rw [hlevels]
    rfl
  · rw [Nat.lt_one_iff.mp hi]
    change (List.replicate (params.levels 0 + 1) [])[0]? = some ([] ++ children m 1 0)
    rw [hlevels]
    rfl

/-! ### What the search for its neighbours finds -/

section Find

variable {g : HnswIndex} {q : Vec} (hc : g.Closed s) (hin : ∀ i < n, ∀ j ∈ g.neighbors 0 i, j < n)
  {best : Cand Score} (hbest : best.id < n) (hn : n ≤ g.nodes.length) (hmeasured : Measured metric s q best)
  (hallow : s.admits none best.id = true) {vis : Visited} (hwf : vis.Wf)
  (hstamps : g.nodes.length ≤ vis.stamp.length)

include hc hin hbest hn hmeasured hallow hwf hstamps

theorem searchLayer_yields_of_least (hleast : ∀ i < n, ¬ metric.distance q (s.get i) < best.dist) :
    Yields (g.searchLayer metric s q [best] 1 0 none vis) fun r => r.1 = [best] := by
  refine (searchLayer_rule (R := fun res _ => res = [best])
    (P := fun pending st => st.res = [best] ∧ (∀ c ∈ st.cand, c.id < n) ∧ ∀ e ∈ pending, e < n) hc
    (hbest.trans_le hn) hmeasured hallow hwf hstamps ?_ ?_ ?_ ?_ ?_).mono fun _ hr => hr.2
  · intro st hcand hres _
    refine ⟨hres, ?_, fun e he => absurd he List.not_mem_nil⟩
    rw [hcand]
    exact List.forall_mem_singleton.mpr hbest
  · exact fun st hst _ => hst.1
  · exact fun st c rest hst _ _ _ => hst.1
  · rintro st c rest - ⟨hres, hcand, -⟩ hcons
    rw [hcons, List.forall_mem_cons] at hcand
    exact ⟨hres, hcand.2, hin c.id hcand.1⟩
  · rintro fuel e pending st st' - ⟨hres, hcand, hpending⟩ hstep
    obtain ⟨he, hpending⟩ := List.forall_mem_cons.mp hpending
    refine ⟨?_, hstep.forall_cand (Q := (· < n)) hcand he, hpending⟩
    rw [(hstep.eq_of_far (by rw [hres]; rfl) (by rw [hres]; exact hleast e he)).2, hres]

omit hc hin hbest hn hmeasured hallow hwf hstamps in
/-- Before a search with room for one finds the closer neighbour of the node it starts from. -/
structure Searching (g : HnswIndex) (best : Cand Score) (t : Nat) (pending : List Nat)
    (st : Layer Score) : Prop where
  res_eq : st.res = [best]
  new : ¬ st.vis.Has t
  ahead : pending = [] ∧ st.cand = [best] ∨ t ∈ pending ∧ ∀ e ∈ pending, e ∈ g.neighbors 0 best.id

omit hc hin hbest hn hmeasured hallow hwf hstamps in
theorem Searching.visit {t e : Nat} {pending : List Nat} {st st' : Layer Score}
    (hsearching : Searching g best t (e :: pending) st) (hstep : VisitStep metric s q 1 none st e st')
    (hcloser : metric.distance q (s.get t) < best.dist) (hlive : s.admits none t = true)
    (hothers : ∀ j ∈ g.neighbors 0 best.id, j ≠ t → ¬ metric.distance q (s.get j) < best.dist) :
    Searching g best t pending st' ∨ st'.res = [⟨metric.distance q (s.get t), t⟩] := by
  obtain ⟨hres, hnew, hahead⟩ := hsearching
  obtain ⟨hmem, hall⟩ := hahead.resolve_left fun h => List.cons_ne_nil _ _ h.1
  obtain ⟨he, hall⟩ := List.forall_mem_cons.mp hall
  by_cases het : e = t
  · subst het
    refine .inr ?_
    cases hstep with
    | seen htest => exact absurd (htest.seen_iff.mp rfl) hnew
    | far _ hfar =>
        rw [hres] at hfar
        exact absurd (Or.inr hcloser) hfar
    | navigated _ _ hallow => exact absurd hlive hallow
    | joined =>
        -- the farther of the two is evicted
        change evict 1 (PriorityQueue.push farOnTop st.res _) = _
        have hpush : PriorityQueue.push farOnTop [best] ⟨metric.distance q (s.get e), e⟩ =
            [best, ⟨metric.distance q (s.get e), e⟩] := if_neg (not_not.mpr hcloser)
        rw [hres, hpush]
        rfl
  · have hfar : ¬ metric.distance q (s.get e) < bound metric st.res := by
      rw [hres]
      exact hothers e he het
    refine .inl ⟨?_, ?_, .inr ⟨?_, hall⟩⟩
    · rw [(hstep.eq_of_far (by rw [hres]; rfl) hfar).2, hres]
    · rw [hstep.has_iff]
      exact not_or.mpr ⟨Ne.symm het, hnew⟩
    · exact (List.mem_cons.mp hmem).resolve_left (Ne.symm het)

/-- Where one neighbour of the node it starts from is closer, and no other, and no node is closer still, the
search with room for one goes there. -/
theorem searchLayer_yields_of_closer {t : Nat} (ht : t ∈ g.neighbors 0 best.id) (hne : t ≠ best.id)
    (hcloser : metric.distance q (s.get t) < best.dist) (hlive : s.admits none t = true)
    (hothers : ∀ j ∈ g.neighbors 0 best.id, j ≠ t → ¬ metric.distance q (s.get j) < best.dist)
    (hleast : ∀ i < n, ¬ metric.distance q (s.get i) < metric.distance q (s.get t)) :
    Yields (g.searchLayer metric s q [best] 1 0 none vis) fun r =>
      r.1 = [⟨metric.distance q (s.get t), t⟩] := by
  refine (searchLayer_rule (R := fun res _ => res = [⟨metric.distance q (s.get t), t⟩])
    (P := fun pending st => (Searching g best t pending st ∨ st.res = [⟨metric.distance q (s.get t), t⟩]) ∧
      (∀ c ∈ st.cand, c.id < n) ∧ ∀ e ∈ pending, e < n) hc
    (hbest.trans_le hn) hmeasured hallow hwf hstamps ?_ ?_ ?_ ?_ ?_).mono fun _ hr => hr.2
  · intro st hcand hres hhas
    refine ⟨.inl ⟨hres, fun hmem => hne ((hhas t).mp hmem), .inl ⟨rfl, hcand⟩⟩, ?_,
      fun e he => absurd he List.not_mem_nil⟩
    rw [hcand]
    exact List.forall_mem_singleton.mpr hbest
  · rintro st ⟨⟨-, -, ⟨-, hcand⟩ | ⟨hmem, -⟩⟩ | hfound, -⟩ hnil
    · cases hcand.symm.trans hnil
    · exact absurd hmem List.not_mem_nil
    · exact hfound
  · rintro st c rest ⟨⟨hres, -, ⟨-, hcand⟩ | ⟨hmem, -⟩⟩ | hfound, -⟩ hcons - hbound
    · cases hcand.symm.trans hcons
      rw [hres] at hbound
      exact absurd hbound (lt_irrefl best.dist)
    · exact absurd hmem List.not_mem_nil
    · exact hfound
  · rintro st c rest - ⟨hphase, hcand, -⟩ hcons
    have hids := hcand
    rw [hcons, List.forall_mem_cons] at hids
    refine ⟨?_, hids.2, hin c.id hids.1⟩
    rcases hphase with ⟨hres, hnew, ⟨-, hcand⟩ | ⟨hmem, -⟩⟩ | hfound
    · cases hcand.symm.trans hcons
      exact .inl ⟨hres, hnew, .inr ⟨ht, fun e he => he⟩⟩
    · exact absurd hmem List.not_mem_nil
    · exact .inr hfound
  · rintro fuel e pending st st' - ⟨hphase, hcand, hpending⟩ hstep
    obtain ⟨he, hpending⟩ := List.forall_mem_cons.mp hpending
    refine ⟨?_, hstep.forall_cand (Q := (· < n)) hcand he, hpending⟩
    rcases hphase with hsearching | hfound
    · exact hsearching.visit hstep hcloser hlive hothers
    · right
      rw [(hstep.eq_of_far (by rw [hfound]; rfl) (by rw [hfound]; exact hleast e he)).2, hfound]

end Find

/-! ### The next point -/

variable (D : Detour metric)

theorem Detour.gate_lt_near (hn : m < n) :
    metric.distance (D.point m n) D.gate < metric.distance (D.point m n) D.near := by
  rcases Nat.lt_or_eq_of_le (show m + 1 ≤ n from hn) with hlt | rfl
  · rw [D.point_of_gt hlt]
    exact D.gate_gate
  · rw [D.point_goal]
    exact D.goal_gate

theorem Detour.not_lt_gate {i : Nat} (hn : m < n) (hi : i < n) :
    ¬ metric.distance (D.point m n) (D.point m i) < metric.distance (D.point m n) D.gate := by
  rcases Nat.lt_trichotomy i m with hlt | rfl | hgt
  · rw [D.point_of_lt hlt]
    exact lt_asymm (D.gate_lt_near hn)
  · rw [D.point_gate]
    exact lt_irrefl _
  · rcases Nat.lt_or_eq_of_le (show m + 1 ≤ i from hgt) with hlt | rfl
    · rw [D.point_of_gt hlt]
      exact lt_irrefl _
    · rw [D.point_goal, D.point_of_gt hi]
      exact D.gate_goal

omit [LinearOrder Score] in
theorem Star.neighbors_eq (hstar : Star params m n h) {i : Nat} (hi : i < n) :
    h.neighbors 0 i = (if i = 0 then [] else [parent m i]) ++ children m n i := by
  rw [neighbors, hstar.links_eq i hi, Option.getD_some]

theorem lt_of_mem_rays {m n j : Nat} (hm : 0 < m) (hj : j ∈ children m n 0) (hne : j ≠ m) : j < m := by
  obtain ⟨-, -, hparent⟩ := mem_children.mp hj
  unfold parent at hparent
  split_ifs at hparent with hle
  · exact lt_of_le_of_ne hle hne
  · exact absurd hparent hm.ne'

/-- On the points so far, the search for the next one finds its parent: the gate if it is behind that, and
otherwise the first node, where the search begins. -/
theorem Detour.finds_parent {g : HnswIndex} (hm : 0 < m) (hn : 0 < n) (hc : g.Closed s)
    (hin : ∀ i < n, ∀ j ∈ g.neighbors 0 i, j < n) (hlen : n ≤ g.nodes.length)
    (hrays : g.neighbors 0 0 = children m n 0) (hpoints : ∀ i < n, s.get i = D.point m i)
    (hadmits : ∀ i < n, s.admits none i = true) {vis : Visited} (hwf : vis.Wf)
    (hstamps : g.nodes.length ≤ vis.stamp.length) :
    Yields (g.searchLayer metric s (D.point m n) [⟨metric.distance (D.point m n) D.near, 0⟩] 1 0 none vis)
      fun r => ∃ d, r.1 = [⟨d, parent m n⟩] := by
  have hfirst : (⟨metric.distance (D.point m n) D.near, 0⟩ : Cand Score).id < n := hn
  have hmeasured : Measured metric s (D.point m n) ⟨metric.distance (D.point m n) D.near, 0⟩ := by
    rw [Measured, hpoints 0 hn, D.point_of_lt hm]
  rcases Nat.lt_or_ge m n with hbehind | hbefore
  · have hgate : s.get m = D.gate := (hpoints m hbehind).trans D.point_gate
    have hray : m ∈ g.neighbors 0 0 := hrays ▸ mem_children.mpr ⟨hbehind, hm, if_pos le_rfl⟩
    have hcloser : metric.distance (D.point m n) (s.get m) < metric.distance (D.point m n) D.near :=
      hgate ▸ D.gate_lt_near hbehind
    have hothers : ∀ j ∈ g.neighbors 0 0, j ≠ m →
        ¬ metric.distance (D.point m n) (s.get j) < metric.distance (D.point m n) D.near := by
      intro j hj hne
      rw [hpoints j (hin 0 hn j hj), D.point_of_lt (lt_of_mem_rays hm (hrays ▸ hj) hne)]
      exact lt_irrefl _
    have hleast : ∀ i < n,
        ¬ metric.distance (D.point m n) (s.get i) < metric.distance (D.point m n) (s.get m) := by
      intro i hi
      rw [hpoints i hi, hgate]
      exact D.not_lt_gate hbehind hi
    rw [parent, if_neg (Nat.not_le.mpr hbehind)]
    exact (searchLayer_yields_of_closer hc hin hfirst hlen hmeasured (hadmits 0 hn) hwf hstamps hray hm.ne'
      hcloser (hadmits m hbehind) hothers hleast).mono fun r hr => ⟨_, hr⟩
  · have hleast : ∀ i < n,
        ¬ metric.distance (D.point m n) (s.get i) < metric.distance (D.point m n) D.near := by
      intro i hi
      rw [hpoints i hi, D.point_of_lt (hi.trans_le hbefore)]
      exact lt_irrefl _
    rw [parent, if_pos hbefore]
    exact (searchLayer_yields_of_least hc hin hfirst hlen hmeasured (hadmits 0 hn) hwf hstamps
      hleast).mono fun r hr => ⟨_, hr⟩

theorem Star.insert (hstar : Star params m n h) (hm : 0 < m) (hn : 0 < n) (hlevels : ∀ i, params.levels i = 0)
    (hefC : params.efConstruction = 1) (hM : n < 2 * params.M) (hslots : n < s.slotCount)
    (hpoints : ∀ i ≤ n, s.get i = D.point m i) (hlive : ∀ i < n, s.isLive i = true) :
    Yields (h.add metric s params n) (Star params m (n + 1)) := by
  have hplaced : (h.placed params).nodes.length = n + 1 := by
    rw [nodes_placed, List.length_append, List.length_singleton, hstar.length_eq]
  have hclosed : (h.placed params).Closed s := hstar.graph.toLinksInv.placed.closed (hplaced ▸ hslots)
  have hsame : ∀ i < n, (h.placed params).neighbors 0 i = h.neighbors 0 i := fun i hi => by
    rw [neighbors, neighbors, links?_placed_of_lt (hstar.length_eq ▸ hi)]
  have hin : ∀ i < n, ∀ j ∈ (h.placed params).neighbors 0 i, j < n := fun i hi j hj =>
    hstar.lt_of_edge (mem_neighbors.mp (hsame i hi ▸ hj))
  have hrays : (h.placed params).neighbors 0 0 = children m n 0 := by
    rw [hsame 0 hn, hstar.neighbors_eq hn, if_pos rfl, List.nil_append]
  have hadmits : ∀ i < n, s.admits none i = true := fun i hi => by
    rw [VectorStore.admits, hlive i hi]
    rfl
  have hstamps : (h.placed params).nodes.length ≤ (Visited.ensure {} (n + 1)).stamp.length :=
    (hplaced.trans (Visited.length_ensure (n + 1)).symm).le
  apply hstar.add hn hlevels hM hslots
  rw [hefC, hpoints n le_rfl, hpoints 0 hn.le, D.point_of_lt hm]
  exact D.finds_parent hm hn hclosed hin (hplaced ▸ Nat.le_succ n) hrays (fun i hi => hpoints i hi.le)
    hadmits (Visited.wf_ensure (n + 1)) hstamps

end Insert

end HnswIndex

end ToyVdb
