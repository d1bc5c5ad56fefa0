import ToyVdb.Hnsw.Query

/-!
# What a layer is explored for

The two walks over a layer, in every graph that satisfies the invariant. The greedy one ends at a local
minimum. The best-first one keeps the best of everything it looked at; to say what that is, the search is
run once more with the nodes whose distances it evaluates written down. The results are the bounded queue of
the admitted ones among them, in the order in which they were looked at, whatever the frontier does.
-/

namespace ToyVdb

namespace HnswIndex

open Outcome Relation

variable {Score : Type}

/-! ### The search with its evaluations -/

section Logged

variable [LT Score] [DecidableLT Score] (metric : Metric Score) (s : VectorStore)

/-- `visit`, with the nodes evaluated so far. -/
def visitLogged (q : Vec) (ef : Nat) (allowed : Option Bitset) (st : Layer Score × List Nat) (e : Nat) :
    Except Error (Layer Score × List Nat) := do
  let (seen, vis) ← st.1.vis.testSet e
  if seen then pure ({ st.1 with vis := vis }, st.2)
  else
    let d ← distTo metric s q e
    let evaluated := st.2 ++ [e]
    if st.1.res.length < ef ∨ d < bound metric st.1.res then
      let cand := PriorityQueue.push nearOnTop st.1.cand ⟨d, e⟩
      if s.admits allowed e then
        let res := PriorityQueue.push farOnTop st.1.res ⟨d, e⟩
        pure (⟨cand, if res.length > ef then res.tail else res, vis⟩, evaluated)
      else pure (⟨cand, st.1.res, vis⟩, evaluated)
    else pure ({ st.1 with vis := vis }, evaluated)

def layerLoopLogged (h : HnswIndex) (q : Vec) (ef l : Nat) (allowed : Option Bitset) :
    Nat → Layer Score × List Nat → Except Error (Layer Score × List Nat)
  | 0, st => if st.1.cand.isEmpty then pure st else .error .outOfFuel
  | fuel + 1, st =>
    match st.1.cand with
    | [] => pure st
    | c :: rest =>
      if st.1.res.length ≥ ef ∧ bound metric st.1.res < c.dist then pure ({ st.1 with cand := rest }, st.2)
      else do
        let node ← h.node c.id
        match node.links[l]? with
        | none => layerLoopLogged h q ef l allowed fuel ({ st.1 with cand := rest }, st.2)
        | some links =>
          let st ← links.foldlM (visitLogged metric s q ef allowed) ({ st.1 with cand := rest }, st.2)
          layerLoopLogged h q ef l allowed fuel st

/-- `searchLayer`, with the nodes it evaluates. -/
def searchLayerLogged (h : HnswIndex) (q : Vec) (entries : List (Cand Score)) (ef layer : Nat)
    (allowed : Option Bitset) (vis : Visited) : Except Error (List (Cand Score) × Visited × List Nat) := do
  let st ← entries.foldlM (enter s allowed) ⟨[], [], vis.bump⟩
  let (st, evaluated) ← layerLoopLogged metric s h q ef layer allowed
    (entries.length + st.vis.stamp.length) (st, [])
  pure (st.res, st.vis, evaluated)

variable {metric s} {h : HnswIndex} {q : Vec} {ef l : Nat} {allowed : Option Bitset}

theorem map_visitLogged (st : Layer Score × List Nat) (e : Nat) :
    (visitLogged metric s q ef allowed st e).map Prod.fst = visit metric s q ef allowed st.1 e := by
  unfold visitLogged visit
  cases htest : st.1.vis.testSet e with
  | error err => rfl
  | ok r =>
      obtain ⟨seen, vis⟩ := r
      cases seen with
      | true => rfl
      | false =>
          cases hdist : distTo metric s q e with
          | error err => rfl
          | ok d =>
              change (ite _ _ _ : Except Error _).map Prod.fst = ite _ _ _
              by_cases hbetter : st.1.res.length < ef ∨ d < bound metric st.1.res
              · rw [if_pos hbetter, if_pos hbetter]
                by_cases hallow : s.admits allowed e = true
                · rw [if_pos hallow, if_pos hallow]
                  rfl
                · rw [if_neg hallow, if_neg hallow]
                  rfl
              · rw [if_neg hbetter, if_neg hbetter]
                rfl

theorem map_layerLoopLogged (fuel : Nat) (st : Layer Score × List Nat) :
    (layerLoopLogged metric s h q ef l allowed fuel st).map Prod.fst =
      layerLoop metric s h q ef l allowed fuel st.1 := by
  induction fuel generalizing st with
  | zero =>
      rw [layerLoopLogged, layerLoop]
      split_ifs
      · rfl
      · rfl
  | succ fuel ih =>
      rw [layerLoopLogged, layerLoop]
      cases hcand : st.1.cand with
      | nil => rfl
      | cons c rest =>
          dsimp only
          split_ifs with hstop
          · rfl
          · cases hnode : h.node c.id with
            | error err => rfl
            | ok node =>
                change (match node.links[l]? with | none => _ | some links => _ : Except Error _).map _ =
                  match node.links[l]? with | none => _ | some links => _
                cases node.links[l]? with
                | none => exact ih _
                | some links =>
                    dsimp only
                    have hfold : (links.foldlM (visitLogged metric s q ef allowed)
                        ({ st.1 with cand := rest }, st.2)).map Prod.fst = _ :=
                      map_foldlM map_visitLogged links ({ st.1 with cand := rest }, st.2)
                    rw [← hfold]
                    cases links.foldlM (visitLogged metric s q ef allowed)
                      ({ st.1 with cand := rest }, st.2) with
                    | error err => rfl
                    | ok next => exact ih next

theorem map_searchLayerLogged (entries : List (Cand Score)) (vis : Visited) :
    (h.searchLayerLogged metric s q entries ef l allowed vis).map (fun r => (r.1, r.2.1)) =
      h.searchLayer metric s q entries ef l allowed vis := by
  unfold searchLayerLogged searchLayer
  cases entries.foldlM (enter s allowed) ⟨[], [], vis.bump⟩ with
  | error err => rfl
  | ok st =>
      change (layerLoopLogged metric s h q ef l allowed _ (st, []) >>= _).map _ =
        (layerLoop metric s h q ef l allowed _ st >>= _)
      rw [← map_layerLoopLogged _ (st, [])]
      cases layerLoopLogged metric s h q ef l allowed (entries.length + st.vis.stamp.length) (st, []) with
      | error err => rfl
      | ok next => rfl

theorem exists_searchLayerLogged {entries : List (Cand Score)} {vis vis' : Visited} {out : List (Cand Score)}
    (hsearch : h.searchLayer metric s q entries ef l allowed vis = .ok (out, vis')) :
    ∃ evaluated, h.searchLayerLogged metric s q entries ef l allowed vis = .ok (out, vis', evaluated) := by
  rw [← map_searchLayerLogged] at hsearch
  cases hlogged : h.searchLayerLogged metric s q entries ef l allowed vis with
  | error err =>
      rw [hlogged] at hsearch
      cases hsearch
  | ok r =>
      rw [hlogged] at hsearch
      cases hsearch
      exact ⟨r.2.2, rfl⟩

end Logged

/-! ### What is kept -/

section Kept

variable {h : HnswIndex} {metric : Metric Score} {s : VectorStore} {q : Vec} {entries : List (Cand Score)}
  {ef l : Nat} {allowed : Option Bitset}

/-- The admitted candidates a search has looked at, in order: entries first, then what it evaluated. -/
def lookedAt (metric : Metric Score) (s : VectorStore) (q : Vec) (entries : List (Cand Score))
    (allowed : Option Bitset) (evaluated : List Nat) : List (Cand Score) :=
  (entries ++ evaluated.map fun i => Cand.mk (metric.distance q (s.get i)) i).filter
    fun c => s.admits allowed c.id

theorem map_id_lookedAt (evaluated : List Nat) :
    (lookedAt metric s q entries allowed evaluated).map Cand.id =
      (entries.map Cand.id ++ evaluated).filter (s.admits allowed) := by
  have hids : entries.map Cand.id ++ evaluated =
      (entries ++ evaluated.map fun i => Cand.mk (metric.distance q (s.get i)) i).map Cand.id := by
    rw [List.map_append, List.map_map]
    congr 1
    exact (List.map_id evaluated).symm
  rw [hids, List.filter_map]
  rfl

theorem measured_of_mem_lookedAt (hmeasured : ∀ e ∈ entries, Measured metric s q e) {evaluated : List Nat}
    {c : Cand Score} (hc : c ∈ lookedAt metric s q entries allowed evaluated) : Measured metric s q c := by
  rcases List.mem_append.mp (List.mem_filter.mp hc).1 with hc | hc
  · exact hmeasured c hc
  · obtain ⟨i, -, rfl⟩ := List.mem_map.mp hc
    rfl

theorem lookedAt_append (evaluated : List Nat) (e : Nat) :
    lookedAt metric s q entries allowed (evaluated ++ [e]) = lookedAt metric s q entries allowed evaluated ++
      if s.admits allowed e then [⟨metric.distance q (s.get e), e⟩] else [] := by
  rw [lookedAt, lookedAt, List.map_append, ← List.append_assoc, List.filter_append]
  congr 1
  rw [List.map_singleton, List.filter_singleton]
  cases s.admits allowed e <;> rfl

variable [LinearOrder Score]

/-- The results are the bounded queue of what was looked at, and that is what was visited. -/
structure Kept (metric : Metric Score) (s : VectorStore) (q : Vec) (entries : List (Cand Score)) (ef : Nat)
    (allowed : Option Bitset) (st : Layer Score × List Nat) : Prop where
  has_iff : ∀ i, st.1.vis.Has i ↔ i ∈ entries.map Cand.id ++ st.2
  nodup : (entries.map Cand.id ++ st.2).Nodup
  res_eq : st.1.res = (lookedAt metric s q entries allowed st.2).foldl (PriorityQueue.offer farOnTop ef) []

/-- With room for one, pushing and evicting is offering. -/
theorem offer_eq (metric : Metric Score) (hef : 1 ≤ ef) {res : List (Cand Score)} (hlen : res.length ≤ ef)
    (c : Cand Score) :
    PriorityQueue.offer farOnTop ef res c = if res.length < ef ∨ c.dist < bound metric res then
      evict ef (PriorityQueue.push farOnTop res c) else res := by
  unfold PriorityQueue.offer
  by_cases hroom : res.length < ef
  · have hfits : ¬ (PriorityQueue.push farOnTop res c).length > ef := by
      rw [PriorityQueue.length_push]
      omega
    have hbetter : res.length < ef ∨ c.dist < bound metric res := .inl hroom
    rw [if_pos hbetter, evict, if_neg hfits, if_pos hroom]
  · rw [if_neg hroom]
    cases res with
    | nil => exact absurd hef (by simpa using hroom)
    | cons top rest =>
        have hbound : bound metric (top :: rest) = top.dist := rfl
        change (if c.dist < top.dist then _ else _) = _
        by_cases hcloser : c.dist < top.dist
        · have hpush : PriorityQueue.push farOnTop (top :: rest) c =
              top :: PriorityQueue.push farOnTop rest c :=
            if_neg (not_not.mpr hcloser)
          have hfull : (top :: PriorityQueue.push farOnTop rest c).length > ef := by
            rw [List.length_cons, PriorityQueue.length_push]
            rw [List.length_cons] at hroom
            omega
          have hbetter : (top :: rest).length < ef ∨ c.dist < bound metric (top :: rest) := .inr hcloser
          rw [if_pos hcloser, if_pos hbetter, hpush, evict, if_pos hfull, List.tail_cons]
        · rw [if_neg hcloser, if_neg (not_or.mpr ⟨hroom, hbound ▸ hcloser⟩)]

theorem Kept.keeps {st : Layer Score × List Nat} (hkept : Kept metric s q entries ef allowed st) :
    PriorityQueue.Keeps Cand.dist ef (lookedAt metric s q entries allowed st.2) st.1.res := by
  rw [hkept.res_eq]
  exact Heap.Impl.keeps_foldl Cand.dist ef _

theorem Kept.length_le {st : Layer Score × List Nat} (hkept : Kept metric s q entries ef allowed st) :
    st.1.res.length ≤ ef :=
  hkept.keeps.length_eq.trans_le (Nat.min_le_left _ _)

/-- Evaluating a node: it was not looked at before, and is offered if it is admitted. -/
theorem Kept.evaluate {st : Layer Score × List Nat} (hkept : Kept metric s q entries ef allowed st) {e : Nat}
    {vis : Visited} (htest : st.1.vis.Tested e false vis) {cand res : List (Cand Score)}
    (hres : res = if s.admits allowed e then
      PriorityQueue.offer farOnTop ef st.1.res ⟨metric.distance q (s.get e), e⟩ else st.1.res) :
    Kept metric s q entries ef allowed (⟨cand, res, vis⟩, st.2 ++ [e]) where
  has_iff i := by
    rw [htest.has_iff, hkept.has_iff, ← List.append_assoc, List.mem_append (t := [e]), List.mem_singleton,
      or_comm]
  nodup := by
    have hnew : e ∉ entries.map Cand.id ++ st.2 := fun hmem =>
      absurd (htest.seen_iff.mpr ((hkept.has_iff e).mpr hmem)) (by decide)
    rw [← List.append_assoc, List.nodup_append]
    refine ⟨hkept.nodup, List.nodup_singleton e, fun i hi j hj heq => hnew ?_⟩
    rw [← List.mem_singleton.mp hj, ← heq]
    exact hi
  res_eq := by
    rw [lookedAt_append, List.foldl_append, ← hkept.res_eq]
    by_cases hallow : s.admits allowed e = true
    · rw [if_pos hallow]
      rw [if_pos hallow] at hres
      exact hres
    · rw [if_neg hallow]
      rw [if_neg hallow] at hres
      exact hres

theorem Kept.visit (hef : 1 ≤ ef) {st st' : Layer Score × List Nat} {e : Nat}
    (hkept : Kept metric s q entries ef allowed st)
    (hvisit : visitLogged metric s q ef allowed st e = .ok st') : Kept metric s q entries ef allowed st' := by
  obtain ⟨⟨seen, vis⟩, htest, hvisit⟩ := exists_of_bind_eq_ok hvisit
  have htested := Visited.tested_of_testSet htest
  cases seen with
  | true =>
      cases hvisit
      refine ⟨fun i => ?_, hkept.nodup, hkept.res_eq⟩
      rw [htested.has_iff, hkept.has_iff, or_iff_right_of_imp]
      rintro rfl
      exact (hkept.has_iff _).mp (htested.seen_iff.mp rfl)
  | false =>
      obtain ⟨d, hdist, hvisit⟩ := exists_of_bind_eq_ok hvisit
      have hd := dist_of_distTo hdist
      subst hd
      have hoffer := offer_eq metric hef hkept.length_le ⟨metric.distance q (s.get e), e⟩
      by_cases hbetter : st.1.res.length < ef ∨ metric.distance q (s.get e) < bound metric st.1.res
      · rw [if_pos hbetter] at hoffer
        rw [if_pos hbetter] at hvisit
        by_cases hallow : s.admits allowed e = true
        · rw [if_pos hallow] at hvisit
          cases hvisit
          exact hkept.evaluate htested (by rw [if_pos hallow, hoffer]; rfl)
        · rw [if_neg hallow] at hvisit
          cases hvisit
          exact hkept.evaluate htested (if_neg hallow).symm
      · rw [if_neg hbetter] at hoffer
        rw [if_neg hbetter] at hvisit
        cases hvisit
        exact hkept.evaluate htested (by rw [hoffer, ite_self])

theorem Kept.layerLoop (hef : 1 ≤ ef) (fuel : Nat) {st st' : Layer Score × List Nat}
    (hkept : Kept metric s q entries ef allowed st)
    (hloop : layerLoopLogged metric s h q ef l allowed fuel st = .ok st') :
    Kept metric s q entries ef allowed st' := by
  induction fuel generalizing st with
  | zero =>
      rw [layerLoopLogged] at hloop
      split_ifs at hloop
      cases hloop
      exact hkept
  | succ fuel ih =>
      rw [layerLoopLogged] at hloop
      cases hcand : st.1.cand with
      | nil =>
          rw [hcand] at hloop
          cases hloop
          exact hkept
      | cons c rest =>
          rw [hcand] at hloop
          have hpop : Kept metric s q entries ef allowed ({ st.1 with cand := rest }, st.2) :=
            ⟨hkept.has_iff, hkept.nodup, hkept.res_eq⟩
          dsimp only at hloop
          split_ifs at hloop
          · cases hloop
            exact hpop
          · obtain ⟨node, -, hloop⟩ := exists_of_bind_eq_ok hloop
            cases hlinks : node.links[l]? with
            | none =>
                rw [hlinks] at hloop
                exact ih hpop hloop
            | some links =>
                rw [hlinks] at hloop
                obtain ⟨next, hfold, hloop⟩ := exists_of_bind_eq_ok hloop
                refine ih (invariant_foldlM (fun st e st' hkept hvisit => ?_) links _ _ hpop hfold) hloop
                exact hkept.visit hef hvisit

theorem res_of_foldlM_enter (entries : List (Cand Score)) {st st' : Layer Score}
    (hfold : entries.foldlM (enter s allowed) st = .ok st') :
    st'.res = (entries.filter fun c => s.admits allowed c.id).foldl (PriorityQueue.push farOnTop) st.res := by
  induction entries generalizing st with
  | nil =>
      cases hfold
      rfl
  | cons e entries ih =>
      rw [List.foldlM_cons] at hfold
      obtain ⟨next, hnext, hfold⟩ := exists_of_bind_eq_ok hfold
      obtain ⟨r, -, hnext⟩ := exists_of_bind_eq_ok hnext
      cases hnext
      rw [ih hfold]
      by_cases hallow : s.admits allowed e.id = true
      · rw [List.filter_cons, if_pos hallow, if_pos hallow, List.foldl_cons]
      · rw [List.filter_cons, if_neg hallow, if_neg hallow]

theorem EnterInv.kept {st : Layer Score} (hinv : EnterInv h s entries allowed [] st)
    (hnodup : (entries.map Cand.id).Nodup) (hlen : entries.length ≤ ef)
    (hres : st.res = (entries.filter fun c => s.admits allowed c.id).foldl (PriorityQueue.push farOnTop) []) :
    Kept metric s q entries ef allowed (st, []) where
  has_iff i := by
    have hperm : st.cand.Perm entries := by simpa using hinv.split
    rw [hinv.has_iff, (hperm.map Cand.id).mem_iff, List.append_nil]
  nodup := by rwa [List.append_nil]
  res_eq := by
    have hroom : ([] : List (Cand Score)).length +
        (entries.filter fun c => s.admits allowed c.id).length ≤ ef :=
      (Nat.zero_add _).trans_le ((List.length_filter_le _ _).trans hlen)
    rw [hres, lookedAt, List.map_nil, List.append_nil, PriorityQueue.foldl_offer_of_room _ _ _ _ hroom]

/-- What the search with its evaluations returns. -/
theorem kept_of_searchLayerLogged (hef : 1 ≤ ef) (hlen : entries.length ≤ ef)
    (hentries : ∀ e ∈ entries, e.id < h.nodes.length) (hnodup : (entries.map Cand.id).Nodup)
    {vis vis' : Visited} (hwf : vis.Wf) (hstamps : h.nodes.length ≤ vis.stamp.length)
    {out : List (Cand Score)} {evaluated : List Nat}
    (hlogged : h.searchLayerLogged metric s q entries ef l allowed vis = .ok (out, vis', evaluated)) :
    ∃ cand, Kept metric s q entries ef allowed (⟨cand, out, vis'⟩, evaluated) := by
  have hseed : Yields (entries.foldlM (enter s allowed) ⟨[], [], vis.bump⟩)
      (EnterInv h s entries allowed []) :=
    enterAll_yields hentries hnodup hwf hstamps
  obtain ⟨st, henter, hinv⟩ := hseed
  obtain ⟨st', henter', hlogged⟩ := exists_of_bind_eq_ok hlogged
  cases henter.symm.trans henter'
  obtain ⟨⟨⟨cand, res, vis''⟩, log⟩, hloop, hlogged⟩ := exists_of_bind_eq_ok hlogged
  cases hlogged
  exact ⟨cand, (hinv.kept hnodup hlen (res_of_foldlM_enter entries henter)).layerLoop hef _ hloop⟩

end Kept

/-! ### Whole graphs -/

variable [LinearOrder Score]

/-- **Greedy descent ends at a local minimum.** In every graph that satisfies the invariant, on every layer
and from every node, greedy descent ends: at a node it reached over the layer's links, with its true
distance, no farther than where it began, and with no neighbour that is closer. -/
theorem greedy_descent_ends_at_minimum (params : HnswParams) (h : HnswIndex) (hinv : GraphInv params h)
    (s : VectorStore) (hslots : h.nodes.length ≤ s.slotCount) (metric : Metric Score) (q : Vec) (layer : Nat)
    (best : Cand Score) (hbest : best.id < h.nodes.length)
    (hmeasured : best.dist = metric.distance q (s.get best.id)) :
    ∃ r, h.greedyUpper metric s q best layer = .ok r ∧ h.Reaches layer best.id r.id ∧
      r.dist = metric.distance q (s.get r.id) ∧ r.dist ≤ best.dist ∧
      ∀ j, h.Edge layer r.id j → ¬ metric.distance q (s.get j) < r.dist := by
  obtain ⟨r, hgreedy, hdescended⟩ :=
    greedyUpper_yields (hinv.toLinksInv.closed hslots) hbest hmeasured layer
  exact ⟨r, hgreedy, hdescended.reached, hdescended.measured, hdescended.dist_le,
    fun j hedge => not_lt.mpr (hdescended.least j hedge)⟩

/-- From the dead node at 0 to the one at 10, which is where the query is. -/
theorem greedy_descent_ends_at_minimum_sample :
    ∃ r, sampleGraph.greedyUpper l2 sampleStore [0x41200000]
        ⟨l2.distance [0x41200000] (sampleStore.get 0), 0⟩ 0 = .ok r ∧
      r.dist ≤ l2.distance [0x41200000] (sampleStore.get 0) := by
  obtain ⟨r, hgreedy, -, -, hle, -⟩ := greedy_descent_ends_at_minimum ⟨1, 1, 64, fun _ => 0⟩ sampleGraph
    graphInv_sampleGraph sampleStore (by decide) l2 [0x41200000] 0
    ⟨l2.distance [0x41200000] (sampleStore.get 0), 0⟩ (by decide) rfl
  exact ⟨r, hgreedy, hle⟩

/-- **Layer search keeps the best of what it looks at.** In every graph that satisfies the invariant, on
every layer, with room for at least one result and for the entries: the search ends, evaluates no node twice
and no entry, and returns without repetition as many of the admitted nodes it looked at, entries and
evaluated ones, as there is room for; with their true distances, and nothing left out is closer than anything
returned. -/
theorem search_layer_keeps_best (params : HnswParams) (h : HnswIndex) (hinv : GraphInv params h)
    (s : VectorStore) (hslots : h.nodes.length ≤ s.slotCount) (metric : Metric Score) (q : Vec) (l ef : Nat)
    (hef : 1 ≤ ef) (allowed : Option Bitset) (entries : List (Cand Score)) (hlen : entries.length ≤ ef)
    (hentries : ∀ e ∈ entries, e.id < h.nodes.length) (hnodup : (entries.map Cand.id).Nodup)
    (hmeasured : ∀ e ∈ entries, e.dist = metric.distance q (s.get e.id)) (vis : Visited) (hwf : vis.Wf)
    (hstamps : h.nodes.length ≤ vis.stamp.length) :
    ∃ out vis' evaluated, ∃ V : Finset Nat,
      h.searchLayer metric s q entries ef l allowed vis = .ok (out, vis') ∧
      h.searchLayerLogged metric s q entries ef l allowed vis = .ok (out, vis', evaluated) ∧
      (entries.map Cand.id ++ evaluated).Nodup ∧
      (∀ i, i ∈ V ↔ i ∈ entries.map Cand.id ++ evaluated ∧ s.admits allowed i = true) ∧
      (out.map Cand.id).Nodup ∧ out.length = min ef V.card ∧
      (∀ c ∈ out, c.id ∈ V ∧ c.dist = metric.distance q (s.get c.id)) ∧
      ∀ i ∈ V, i ∉ out.map Cand.id → ∀ c ∈ out, ¬ metric.distance q (s.get i) < c.dist := by
  have hlayer : Yields (h.searchLayer metric s q entries ef l allowed vis) _ :=
    searchLayer_yields (hinv.toLinksInv.closed hslots) hentries hnodup hmeasured hwf hstamps
  obtain ⟨⟨out, vis'⟩, hsearch, hsearched⟩ := hlayer
  obtain ⟨evaluated, hlogged⟩ := exists_searchLayerLogged hsearch
  obtain ⟨cand, hkept⟩ := kept_of_searchLayerLogged hef hlen hentries hnodup hwf hstamps hlogged
  have hkeeps := hkept.keeps
  obtain ⟨dropped, hperm, hle⟩ := hkeeps.split
  have hids : (lookedAt metric s q entries allowed evaluated).map Cand.id = _ := map_id_lookedAt evaluated
  refine ⟨out, vis', evaluated, ((lookedAt metric s q entries allowed evaluated).map Cand.id).toFinset,
    hsearch, hlogged, hkept.nodup, fun i => ?_, hsearched.nodup, ?_, fun c hc => ⟨?_, ?_⟩,
    fun i hi hout c hc => ?_⟩
  · rw [List.mem_toFinset, hids, List.mem_filter]
  · rw [List.toFinset_card_of_nodup (hids ▸ hkept.nodup.filter _), List.length_map]
    exact hkeeps.length_eq
  · exact List.mem_toFinset.mpr (List.mem_map_of_mem (hperm.symm.subset (List.mem_append_left _ hc)))
  · exact (hsearched.result c hc).measured
  · obtain ⟨c', hc', rfl⟩ := List.mem_map.mp (List.mem_toFinset.mp hi)
    have hdropped : c' ∈ dropped :=
      (List.mem_append.mp (hperm.subset hc')).resolve_left fun hc' => hout (List.mem_map_of_mem hc')
    have hdist : c'.dist = metric.distance q (s.get c'.id) := measured_of_mem_lookedAt hmeasured hc'
    exact hdist ▸ not_lt.mpr (hle c hc c' hdropped)

/-- The layer of the sample, entered at its dead node. -/
theorem search_layer_keeps_best_sample :
    ∃ out vis, sampleGraph.searchLayer l2 sampleStore [0] [⟨0, 0⟩] 1 0 none (Visited.ensure {} 2) =
      .ok (out, vis) ∧ out.length = 1 ∧ ∀ c ∈ out, c.dist = l2.distance [0] (sampleStore.get c.id) := by
  obtain ⟨out, vis, evaluated, V, hsearch, -, -, -, -, -, hmeasured, -⟩ :=
    search_layer_keeps_best ⟨1, 1, 64, fun _ => 0⟩ sampleGraph graphInv_sampleGraph sampleStore
    (by decide) l2 [0]
      0 1 (by decide) none [⟨0, 0⟩] (by decide) (by decide) (by decide) (by decide) (Visited.ensure {} 2)
      (Visited.wf_ensure 2) (by decide)
  refine ⟨out, vis, hsearch, ?_, fun c hc => (hmeasured c hc).2⟩
  cases hsearch
  decide +kernel

end HnswIndex

end ToyVdb
