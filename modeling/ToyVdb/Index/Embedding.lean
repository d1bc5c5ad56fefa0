import ToyVdb.Hnsw.Model

/-!
# Metrics in the same order

The indexes compare scores and do nothing else with them. Two metrics whose scores are in the same order, on the
components that occur, therefore build the same graph and return the same slots, and the scores they return
correspond.
-/

namespace ToyVdb

open Outcome

variable {S S' : Type}

/-- On vectors of such components the scores of the second metric are those of the first, in the same order. -/
structure Metric.Embeds [LT S] [LT S'] (m : Metric S) (m' : Metric S') (φ : S → S') (P : UInt32 → Prop) :
    Prop where
  lt_iff : ∀ a b, φ a < φ b ↔ a < b
  distance_eq : ∀ u v, (∀ x ∈ u, P x) → (∀ x ∈ v, P x) → φ (m.distance u v) = m'.distance u v
  maxScore_eq : φ m.maxScore = m'.maxScore

def SearchResult.map (φ : S → S') (hit : SearchResult S) : SearchResult S' := ⟨hit.id, φ hit.score⟩

def Cand.map (φ : S → S') (c : Cand S) : Cand S' := ⟨φ c.dist, c.id⟩

/-- Every component the store holds, live or not. -/
def VectorStore.AllIn (P : UInt32 → Prop) (s : VectorStore) : Prop := ∀ x ∈ s.arena, P x

theorem VectorStore.AllIn.get {P : UInt32 → Prop} {s : VectorStore} (hs : s.AllIn P) (id : Nat) :
    ∀ x ∈ s.get id, P x := fun x hx => hs x (List.mem_of_mem_drop (List.mem_of_mem_take hx))

section Search

variable [LT S] [DecidableLT S] [LT S'] [DecidableLT S'] {m : Metric S} {m' : Metric S'} {φ : S → S'}
  {P : UInt32 → Prop} {s : VectorStore} {q : Vec}

/-! ### Queues -/

section Queue

variable {α β : Type} {f : α → β} {less : α → α → Prop} {less' : β → β → Prop} [DecidableRel less]
  [DecidableRel less']

theorem map_push (hless : ∀ a b, less' (f a) (f b) ↔ less a b) (queue : List α) (x : α) :
    (PriorityQueue.push less queue x).map f = PriorityQueue.push less' (queue.map f) (f x) :=
  List.map_orderedInsert _ _ f queue x (fun a _ => not_congr (hless a x).symm) fun a _ => not_congr (hless x a).symm

theorem map_offer (hless : ∀ a b, less' (f a) (f b) ↔ less a b) (k : Nat) (queue : List α) (x : α) :
    (PriorityQueue.offer less k queue x).map f = PriorityQueue.offer less' k (queue.map f) (f x) := by
  unfold PriorityQueue.offer
  rw [List.length_map]
  by_cases hroom : queue.length < k
  · rw [if_pos hroom, if_pos hroom, map_push hless]
  · rw [if_neg hroom, if_neg hroom]
    cases queue with
    | nil => rfl
    | cons top rest =>
        by_cases hlt : less x top
        · simp only [List.map_cons, if_pos hlt, if_pos ((hless x top).mpr hlt), map_push hless]
        · simp only [List.map_cons, if_neg hlt, if_neg (mt (hless x top).mp hlt)]

end Queue

theorem VectorStore.AllIn.map_access {β γ : Type} (hs : s.AllIn P) {view : β → γ} {f : Vec → Except Error β}
    {g : Vec → Except Error γ} (hfg : ∀ v, (∀ x ∈ v, P x) → (f v).map view = g v) (id : Nat) :
    (s.access id >>= f).map view = s.access id >>= g := by
  unfold VectorStore.access
  split_ifs
  · exact hfg _ (hs.get id)
  · rfl

theorem VectorStore.AllIn.access_congr {β : Type} (hs : s.AllIn P) {f g : Vec → Except Error β}
    (hfg : ∀ v, (∀ x ∈ v, P x) → f v = g v) (id : Nat) : s.access id >>= f = s.access id >>= g := by
  unfold VectorStore.access
  split_ifs
  · exact hfg _ (hs.get id)
  · rfl

/-! ### The flat index -/

namespace FlatIndex

theorem scan_map (h : m.Embeds m' φ P) (hs : s.AllIn P) (hq : ∀ x ∈ q, P x) (k : Nat) (params : SearchParams)
    (heap : List (SearchResult S)) (id : Nat) :
    (scan m s q k params heap id).map (List.map (SearchResult.map φ)) =
      scan m' s q k params (heap.map (SearchResult.map φ)) id := by
  unfold scan
  by_cases hadmit : s.admits params.allowed id = true
  · rw [if_pos hadmit, if_pos hadmit]
    refine hs.map_access (fun v hv => ?_) id
    have hhit : SearchResult.map φ ⟨id, m.distance q v⟩ = ⟨id, m'.distance q v⟩ :=
      congrArg (SearchResult.mk id) (h.distance_eq q v hq hv)
    rw [← hhit]
    exact congrArg Except.ok (map_offer (fun a b => h.lt_iff a.score b.score) k heap _)
  · rw [if_neg hadmit, if_neg hadmit]
    rfl

theorem search_map (h : m.Embeds m' φ P) (hs : s.AllIn P) (hq : ∀ x ∈ q, P x) (index : FlatIndex) (k : Nat)
    (params : SearchParams) :
    (index.search m s q k params).map (List.map (SearchResult.map φ)) = index.search m' s q k params := by
  unfold search
  by_cases hk : k = 0
  · rw [if_pos hk, if_pos hk]
    rfl
  · rw [if_neg hk, if_neg hk]
    refine map_bind (map_foldlM (scan_map h hs hq k params) index.ids []) fun heap => ?_
    exact congrArg Except.ok List.map_reverse

end FlatIndex

/-! ### The HNSW index -/

namespace HnswIndex

def Layer.map (φ : S → S') (st : Layer S) : Layer S' :=
  ⟨st.cand.map (Cand.map φ), st.res.map (Cand.map φ), st.vis⟩

variable {g : HnswIndex}

omit [DecidableLT S] [DecidableLT S'] in
theorem distTo_map (h : m.Embeds m' φ P) (hs : s.AllIn P) (hq : ∀ x ∈ q, P x) (id : Nat) :
    (distTo m s q id).map φ = distTo m' s q id := by
  unfold distTo
  refine hs.map_access (fun v hv => ?_) id
  exact congrArg Except.ok (h.distance_eq q v hq hv)

theorem improve_map (h : m.Embeds m' φ P) (hs : s.AllIn P) (hq : ∀ x ∈ q, P x) (links : List Nat)
    (best : Cand S × Bool) :
    (improve m s q links best).map (Prod.map (Cand.map φ) fun changed => changed) =
      improve m' s q links (best.1.map φ, best.2) := by
  induction links generalizing best with
  | nil => rfl
  | cons e links ih =>
      obtain ⟨best, changed⟩ := best
      simp only [improve]
      refine map_bind (distTo_map h hs hq e) fun d => ?_
      have hiff := h.lt_iff d best.dist
      by_cases hlt : d < best.dist
      · rw [if_pos hlt, ih]
        exact (if_pos (hiff.mpr hlt)).symm
      · rw [if_neg hlt, ih]
        exact (if_neg (mt hiff.mp hlt)).symm

theorem greedyLoop_map (h : m.Embeds m' φ P) (hs : s.AllIn P) (hq : ∀ x ∈ q, P x) (l fuel : Nat) (best : Cand S) :
    (greedyLoop m s g q l fuel best).map (Cand.map φ) = greedyLoop m' s g q l fuel (best.map φ) := by
  induction fuel generalizing best with
  | zero => rfl
  | succ fuel ih =>
      simp only [greedyLoop]
      refine map_bind_same fun node => ?_
      cases node.links[l]? with
      | none => rfl
      | some links =>
          refine map_bind (improve_map h hs hq links (best, false)) fun next => ?_
          obtain ⟨next, changed⟩ := next
          cases changed with
          | false => rfl
          | true => exact ih next

theorem descend_map (h : m.Embeds m' φ P) (hs : s.AllIn P) (hq : ∀ x ∈ q, P x) (ep hi lo : Nat) :
    (descend m s g q ep hi lo).map (Cand.map φ) = descend m' s g q ep hi lo := by
  unfold descend
  refine map_bind (distTo_map h hs hq ep) fun d => ?_
  exact map_foldlM (fun best l => greedyLoop_map h hs hq l (g.nodes.length + 1) best) _ _

/-! ### Layer search -/

omit [DecidableLT S] [DecidableLT S'] in
theorem bound_map (h : m.Embeds m' φ P) (res : List (Cand S)) :
    φ (bound m res) = bound m' (res.map (Cand.map φ)) := by
  cases res with
  | nil => exact h.maxScore_eq
  | cons top res => rfl

theorem push_near_map (h : m.Embeds m' φ P) (cand : List (Cand S)) (c : Cand S) :
    (PriorityQueue.push nearOnTop cand c).map (Cand.map φ) =
      PriorityQueue.push nearOnTop (cand.map (Cand.map φ)) (c.map φ) :=
  map_push (fun a b => h.lt_iff b.dist a.dist) cand c

theorem push_far_map (h : m.Embeds m' φ P) (res : List (Cand S)) (c : Cand S) :
    (PriorityQueue.push farOnTop res c).map (Cand.map φ) =
      PriorityQueue.push farOnTop (res.map (Cand.map φ)) (c.map φ) :=
  map_push (fun a b => h.lt_iff a.dist b.dist) res c

theorem enter_map (h : m.Embeds m' φ P) (allowed : Option Bitset) (st : Layer S) (e : Cand S) :
    (enter s allowed st e).map (Layer.map φ) = enter s allowed (st.map φ) (e.map φ) := by
  simp only [enter, Layer.map]
  refine map_bind_same fun r => ?_
  refine congrArg Except.ok ?_
  rw [Layer.map, push_near_map h]
  congr 1
  by_cases hadmit : s.admits allowed e.id = true
  · rw [if_pos hadmit, push_far_map h]
    exact (if_pos hadmit).symm
  · rw [if_neg hadmit]
    exact (if_neg hadmit).symm

theorem visit_map (h : m.Embeds m' φ P) (hs : s.AllIn P) (hq : ∀ x ∈ q, P x) (ef : Nat) (allowed : Option Bitset)
    (st : Layer S) (e : Nat) :
    (visit m s q ef allowed st e).map (Layer.map φ) = visit m' s q ef allowed (st.map φ) e := by
  simp only [visit]
  refine map_bind_same fun r => ?_
  obtain ⟨seen, vis⟩ := r
  cases seen with
  | true => rfl
  | false =>
      refine map_bind (distTo_map h hs hq e) fun d => ?_
      have hiff : (st.res.length < ef ∨ d < bound m st.res) ↔
          ((st.map φ).res.length < ef ∨ φ d < bound m' (st.map φ).res) := by
        rw [Layer.map, List.length_map, ← bound_map h, h.lt_iff]
      have hcand : (PriorityQueue.push nearOnTop st.cand ⟨d, e⟩).map (Cand.map φ) =
          PriorityQueue.push nearOnTop (st.map φ).cand ⟨φ d, e⟩ := push_near_map h _ _
      have hres : (PriorityQueue.push farOnTop st.res ⟨d, e⟩).map (Cand.map φ) =
          PriorityQueue.push farOnTop (st.map φ).res ⟨φ d, e⟩ := push_far_map h _ _
      by_cases hnear : st.res.length < ef ∨ d < bound m st.res
      · rw [if_pos hnear, if_pos (hiff.mp hnear), ← hcand, ← hres, List.length_map]
        by_cases hadmit : s.admits allowed e = true
        · rw [if_pos hadmit, if_pos hadmit, ← List.map_tail, ← apply_ite (List.map (Cand.map φ))]
          rfl
        · rw [if_neg hadmit, if_neg hadmit]
          rfl
      · rw [if_neg hnear, if_neg (mt hiff.mpr hnear)]
        rfl

theorem layerLoop_map (h : m.Embeds m' φ P) (hs : s.AllIn P) (hq : ∀ x ∈ q, P x) (ef l : Nat)
    (allowed : Option Bitset) (fuel : Nat) (st : Layer S) :
    (layerLoop m s g q ef l allowed fuel st).map (Layer.map φ) =
      layerLoop m' s g q ef l allowed fuel (st.map φ) := by
  induction fuel generalizing st with
  | zero =>
      obtain ⟨cand, res, vis⟩ := st
      cases cand <;> rfl
  | succ fuel ih =>
      obtain ⟨cand, res, vis⟩ := st
      cases cand with
      | nil => rfl
      | cons c rest =>
          have hiff : (res.length ≥ ef ∧ bound m res < c.dist) ↔
              ((res.map (Cand.map φ)).length ≥ ef ∧ bound m' (res.map (Cand.map φ)) < φ c.dist) := by
            rw [List.length_map, ← bound_map h, h.lt_iff]
          simp only [layerLoop, Layer.map, List.map_cons]
          by_cases hstop : res.length ≥ ef ∧ bound m res < c.dist
          · rw [if_pos hstop]
            exact (if_pos (hiff.mp hstop)).symm
          · rw [if_neg hstop]
            refine Eq.trans ?_ (if_neg (mt hiff.mpr hstop)).symm
            refine map_bind_same fun node => ?_
            cases node.links[l]? with
            | none => exact ih ⟨rest, res, vis⟩
            | some links =>
                refine map_bind ?_ fun st => ih st
                exact map_foldlM (visit_map h hs hq ef allowed) links ⟨rest, res, vis⟩

theorem searchLayer_map (h : m.Embeds m' φ P) (hs : s.AllIn P) (hq : ∀ x ∈ q, P x) (entries : List (Cand S))
    (ef l : Nat) (allowed : Option Bitset) (vis : Visited) :
    (searchLayer m s g q entries ef l allowed vis).map (Prod.map (List.map (Cand.map φ)) fun vis => vis) =
      searchLayer m' s g q (entries.map (Cand.map φ)) ef l allowed vis := by
  unfold searchLayer
  have henter : (entries.foldlM (enter s allowed) ⟨[], [], vis.bump⟩).map (Layer.map φ) =
      (entries.map (Cand.map φ)).foldlM (enter s allowed) ⟨[], [], vis.bump⟩ := by
    rw [List.foldlM_map]
    exact map_foldlM (enter_map h allowed) entries _
  refine map_bind henter fun st => ?_
  rw [List.length_map]
  exact map_bind (layerLoop_map h hs hq ef l allowed _ st) fun st => rfl

/-! ### Neighbour selection -/

theorem crowded_map (h : m.Embeds m' φ P) (hs : s.AllIn P) (hq : ∀ x ∈ q, P x) (d : S) (result : List (Cand S)) :
    crowded m s q d result = crowded m' s q (φ d) (result.map (Cand.map φ)) := by
  induction result with
  | nil => rfl
  | cons r result ih =>
      rw [List.map_cons, crowded, crowded]
      refine hs.access_congr (fun v hv => ?_) r.id
      have hiff := h.lt_iff (m.distance q v) d
      rw [h.distance_eq q v hq hv] at hiff
      by_cases hlt : m.distance q v < d
      · rw [if_pos hlt, if_pos (hiff.mpr hlt)]
      · rw [if_neg hlt, if_neg (mt hiff.mp hlt), ih]

theorem selectLoop_map (h : m.Embeds m' φ P) (hs : s.AllIn P) (k : Nat) (result cands : List (Cand S)) :
    (selectLoop m s k result cands).map (List.map (Cand.map φ)) =
      selectLoop m' s k (result.map (Cand.map φ)) (cands.map (Cand.map φ)) := by
  induction cands generalizing result with
  | nil => rfl
  | cons c cands ih =>
      rw [List.map_cons, selectLoop, selectLoop, List.length_map]
      by_cases hfull : result.length ≥ k
      · rw [if_pos hfull, if_pos hfull]
        rfl
      · rw [if_neg hfull, if_neg hfull]
        refine hs.map_access (fun v hv => ?_) c.id
        rw [crowded_map h hs hv]
        refine map_bind_same fun near => ?_
        cases near with
        | true => exact ih result
        | false =>
            refine (ih (result ++ [c])).trans ?_
            rw [List.map_append]
            rfl

theorem sortByDist_map (h : m.Embeds m' φ P) (cands : List (Cand S)) :
    (sortByDist cands).map (Cand.map φ) = sortByDist (cands.map (Cand.map φ)) :=
  List.map_insertionSort _ _ _ cands fun a _ b _ => not_congr (h.lt_iff b.dist a.dist).symm

theorem selectNeighbors_map (h : m.Embeds m' φ P) (hs : s.AllIn P) (cands : List (Cand S)) (k : Nat) :
    (selectNeighbors m s cands k).map (List.map (Cand.map φ)) =
      selectNeighbors m' s (cands.map (Cand.map φ)) k := by
  rw [selectNeighbors, selectNeighbors, selectLoop_map h hs, sortByDist_map h]
  rfl

/-! ### Insertion -/

omit [DecidableLT S] [DecidableLT S'] in
theorem distances_map (h : m.Embeds m' φ P) (hs : s.AllIn P) (hq : ∀ x ∈ q, P x) (ids : List Nat) :
    (ids.mapM fun id => s.access id >>= fun v => pure (Cand.mk (m.distance q v) id)).map
        (List.map (Cand.map φ)) =
      ids.mapM fun id => s.access id >>= fun v => pure (Cand.mk (m'.distance q v) id) := by
  refine map_mapM (fun id => hs.map_access (fun v hv => ?_) id) ids
  exact congrArg Except.ok (congrArg (Cand.mk · id) (h.distance_eq q v hq hv))

theorem prune_eq (h : m.Embeds m' φ P) (hs : s.AllIn P) (g : HnswIndex) (id l cap : Nat) :
    g.prune m s id l cap = g.prune m' s id l cap := by
  unfold prune
  refine bind_congr fun lst => ?_
  by_cases hfits : lst.length ≤ cap
  · rw [if_pos hfits, if_pos hfits]
  · rw [if_neg hfits, if_neg hfits]
    refine hs.access_congr (fun v hv => ?_) id
    rw [← distances_map h hs hv, bind_map]
    refine bind_congr fun cc => ?_
    rw [← selectNeighbors_map h hs, bind_map]
    refine bind_congr fun kept => ?_
    rw [List.map_map]
    rfl

/-- What one layer of an insertion hands to the next. -/
def mapEntries (φ : S → S') (st : HnswIndex × List (Cand S) × Visited) : HnswIndex × List (Cand S') × Visited :=
  (st.1, st.2.1.map (Cand.map φ), st.2.2)

theorem linkLayer_map (h : m.Embeds m' φ P) (hs : s.AllIn P) (hq : ∀ x ∈ q, P x) (params : HnswParams) (id : Nat)
    (st : HnswIndex × List (Cand S) × Visited) (l : Nat) :
    (linkLayer m s params q id st l).map (mapEntries φ) = linkLayer m' s params q id (mapEntries φ st) l := by
  obtain ⟨g, entries, vis⟩ := st
  unfold linkLayer
  refine map_bind (searchLayer_map h hs hq entries params.efConstruction l none vis) fun found => ?_
  obtain ⟨w, vis⟩ := found
  refine map_bind (selectNeighbors_map h hs w params.M) fun neighbors => ?_
  simp only [List.foldlM_map, prune_eq h hs]
  refine map_bind_same fun g => map_bind_same fun g => congrArg Except.ok ?_
  cases w <;> rfl

theorem add_eq (h : m.Embeds m' φ P) (hs : s.AllIn P) (g : HnswIndex) (params : HnswParams) (id : Nat) :
    g.add m s params id = g.add m' s params id := by
  unfold add
  obtain ⟨g', hg⟩ : ∃ g', g' = if g.nodes.length < id + 1 then g.reserve id else g := ⟨_, rfl⟩
  simp only [← hg]
  cases g'.built[id]? with
  | none => rfl
  | some built =>
      cases built with
      | true => rfl
      | false =>
          refine hs.access_congr (fun q hq => ?_) id
          cases (g'.place params id).entryPoint with
          | none => rfl
          | some ep =>
              dsimp only
              rw [← descend_map h hs hq, bind_map]
              refine bind_congr fun best => ?_
              have hlayers := fun layers => map_foldlM (linkLayer_map h hs hq params id) layers
                (g'.place params id, [best], Visited.ensure {} (g'.place params id).nodes.length)
              simp only [mapEntries, List.map_cons, List.map_nil] at hlayers
              rw [← hlayers, bind_map]
              rfl

/-! ### Queries -/

theorem search_map (h : m.Embeds m' φ P) (hs : s.AllIn P) (hq : ∀ x ∈ q, P x) (g : HnswIndex) (k : Nat)
    (params : SearchParams) :
    (g.search m s q k params).map (List.map (SearchResult.map φ)) = g.search m' s q k params := by
  unfold search
  by_cases hk : k = 0
  · rw [if_pos hk, if_pos hk]
    rfl
  rw [if_neg hk, if_neg hk]
  cases g.entryPoint with
  | none => rfl
  | some ep =>
      refine map_bind (descend_map h hs hq ep _ 1) fun best => ?_
      refine map_bind (searchLayer_map h hs hq [best] (max params.ef k) 0 params.allowed _) fun found => ?_
      refine congrArg Except.ok ?_
      rw [← sortByDist_map h, ← List.map_take, List.map_map, List.map_map]
      rfl

end HnswIndex

end Search

end ToyVdb
