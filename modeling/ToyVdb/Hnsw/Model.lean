import ToyVdb.Index.Flat

/-!
# The HNSW index

A layered proximity graph over the internal ids: insertion draws a level, zooms in greedily through the
layers above it, and from there down links the new node to a selection of what a best-first search of the
layer finds; a query zooms in to layer 0 and searches there. Deletes do not touch the graph.

Every array access of the source that is not guarded there is a fallible access here, and every loop that
is not over a fixed range runs on fuel. The levels `random_level` draws are a parameter, the n-th draw of
a fresh index being `levels n`; a fresh index with the same seed draws the same levels again.
-/

namespace ToyVdb

/-- Tuning knobs. `levels` stands for the seeded generator behind `random_level`. -/
structure HnswParams where
  M : Nat := 16
  efConstruction : Nat := 200
  efSearch : Nat := 64
  levels : Nat → Nat

structure Node where
  level : Nat := 0
  /-- `links[l]` holds the neighbours at layer `l`. -/
  links : List (List Nat) := []
deriving DecidableEq, Repr

structure Cand (Score : Type) where
  dist : Score
  id : Nat
deriving DecidableEq, Repr

/-! ### The visited set -/

/-- Epoch-stamped visited set: a slot is visited when its stamp is the current epoch. -/
structure Visited where
  stamp : List UInt32 := []
  cur : UInt32 := 0

namespace Visited

def ensure (v : Visited) (n : Nat) : Visited :=
  { v with stamp := v.stamp ++ List.replicate (n - v.stamp.length) 0 }

/-- Start a new epoch; when the counter wraps, clear the stamps and restart. -/
def bump (v : Visited) : Visited :=
  if v.cur + 1 = 0 then ⟨List.replicate v.stamp.length 0, 1⟩ else { v with cur := v.cur + 1 }

/-- Whether the slot was visited already; it is from now on. -/
def testSet (v : Visited) (id : Nat) : Except Error (Bool × Visited) :=
  match v.stamp[id]? with
  | none => .error .outOfRange
  | some epoch =>
    if epoch = v.cur then .ok (true, v) else .ok (false, { v with stamp := v.stamp.set id v.cur })

end Visited

structure HnswIndex where
  nodes : List Node := []
  /-- Whether a node has been inserted into the graph. -/
  built : List Bool := []
  /-- `none` for `kInvalidId`. -/
  entryPoint : Option Nat := none
  maxLevel : Int := -1
  /-- The number of levels drawn so far. -/
  drawn : Nat := 0
deriving DecidableEq

namespace HnswIndex

variable {Score : Type} [LT Score] [DecidableLT Score] (metric : Metric Score) (s : VectorStore)

/-! ### Access -/

def node (h : HnswIndex) (id : Nat) : Except Error Node :=
  match h.nodes[id]? with
  | none => .error .outOfRange
  | some node => .ok node

/-- `nodes_[id].links[l]`. -/
def getLinks (h : HnswIndex) (id l : Nat) : Except Error (List Nat) := do
  let node ← h.node id
  match node.links[l]? with
  | none => .error .outOfRange
  | some links => .ok links

def setLinks (h : HnswIndex) (id l : Nat) (links : List Nat) : HnswIndex :=
  { h with nodes := h.nodes.modify id fun node => { node with links := node.links.set l links } }

def distTo (q : Vec) (id : Nat) : Except Error Score := do
  let v ← s.access id
  pure (metric.distance q v)

def maxLinks (params : HnswParams) (layer : Nat) : Nat := if layer = 0 then 2 * params.M else params.M

/-- The layers from `hi` down to `lo`. -/
def layersDown (hi lo : Nat) : List Nat := (List.range' lo (hi + 1 - lo)).reverse

/-! ### Greedy descent -/

/-- One pass over the links of the best node so far, taken as they were when the pass began. -/
def improve (q : Vec) : List Nat → Cand Score × Bool → Except Error (Cand Score × Bool)
  | [], best => pure best
  | e :: links, (best, changed) => do
    let d ← distTo metric s q e
    if d < best.dist then improve q links (⟨d, e⟩, true) else improve q links (best, changed)

def greedyLoop (h : HnswIndex) (q : Vec) (l : Nat) : Nat → Cand Score → Except Error (Cand Score)
  | 0, _ => .error .outOfFuel
  | fuel + 1, best => do
    let node ← h.node best.id
    match node.links[l]? with
    | none => pure best
    | some links =>
      let (best, changed) ← improve metric s q links (best, false)
      if changed then greedyLoop h q l fuel best else pure best

/-- Every pass but the last moves to a closer node, so there are at most as many as nodes, and one more. -/
def greedyUpper (h : HnswIndex) (q : Vec) (best : Cand Score) (layer : Nat) : Except Error (Cand Score) :=
  greedyLoop metric s h q layer (h.nodes.length + 1) best

/-! ### Layer search -/

/-- The frontier, the results so far (farthest first), and the visited set. -/
structure Layer (Score : Type) where
  cand : List (Cand Score)
  res : List (Cand Score)
  vis : Visited

def farOnTop (a b : Cand Score) : Prop := a.dist < b.dist

def nearOnTop (a b : Cand Score) : Prop := b.dist < a.dist

instance : DecidableRel (@farOnTop Score _) := fun a b => inferInstanceAs (Decidable (a.dist < b.dist))

instance : DecidableRel (@nearOnTop Score _) := fun a b => inferInstanceAs (Decidable (b.dist < a.dist))

/-- The distance of the farthest result, or the largest score when there is none. -/
def bound (res : List (Cand Score)) : Score :=
  match res with
  | [] => metric.maxScore
  | top :: _ => top.dist

/-- Look at one neighbour. Any node is navigated through, but only admitted ones become results. -/
def visit (q : Vec) (ef : Nat) (allowed : Option Bitset) (st : Layer Score) (e : Nat) :
    Except Error (Layer Score) := do
  let (seen, vis) ← st.vis.testSet e
  if seen then pure { st with vis := vis }
  else
    let d ← distTo metric s q e
    if st.res.length < ef ∨ d < bound metric st.res then
      let cand := PriorityQueue.push nearOnTop st.cand ⟨d, e⟩
      if s.admits allowed e then
        let res := PriorityQueue.push farOnTop st.res ⟨d, e⟩
        pure ⟨cand, if res.length > ef then res.tail else res, vis⟩
      else pure ⟨cand, st.res, vis⟩
    else pure { st with vis := vis }

/-- Seed the frontier and the results. -/
def enter (allowed : Option Bitset) (st : Layer Score) (e : Cand Score) : Except Error (Layer Score) := do
  let (_, vis) ← st.vis.testSet e.id
  let cand := PriorityQueue.push nearOnTop st.cand e
  pure ⟨cand, if s.admits allowed e.id then PriorityQueue.push farOnTop st.res e else st.res, vis⟩

def layerLoop (h : HnswIndex) (q : Vec) (ef l : Nat) (allowed : Option Bitset) :
    Nat → Layer Score → Except Error (Layer Score)
  | 0, st => if st.cand.isEmpty then pure st else .error .outOfFuel
  | fuel + 1, st =>
    match st.cand with
    | [] => pure st
    | c :: rest =>
      -- the frontier cannot improve the results any more
      if st.res.length ≥ ef ∧ bound metric st.res < c.dist then pure { st with cand := rest }
      else do
        let node ← h.node c.id
        match node.links[l]? with
        | none => layerLoop h q ef l allowed fuel { st with cand := rest }
        | some links =>
          let st ← links.foldlM (visit metric s q ef allowed) { st with cand := rest }
          layerLoop h q ef l allowed fuel st

/-- Best-first search of one layer. Each round takes a node off the frontier, and a node joins it once at
most, so the entries and the slots bound the rounds. -/
def searchLayer (h : HnswIndex) (q : Vec) (entries : List (Cand Score)) (ef layer : Nat)
    (allowed : Option Bitset) (vis : Visited) : Except Error (List (Cand Score) × Visited) := do
  let st ← entries.foldlM (enter s allowed) ⟨[], [], vis.bump⟩
  let st ← layerLoop metric s h q ef layer allowed (entries.length + st.vis.stamp.length) st
  pure (st.res, st.vis)

/-! ### Neighbour selection -/

/-- Whether a candidate is closer to a neighbour already picked than to the query. -/
def crowded (cv : Vec) (dist : Score) : List (Cand Score) → Except Error Bool
  | [] => pure false
  | r :: result => do
    let v ← s.access r.id
    if metric.distance cv v < dist then pure true else crowded cv dist result

def selectLoop (m : Nat) : List (Cand Score) → List (Cand Score) → Except Error (List (Cand Score))
  | result, [] => pure result
  | result, cand :: cands =>
    if result.length ≥ m then pure result
    else do
      let cv ← s.access cand.id
      if ← crowded metric s cv cand.dist result then selectLoop m result cands
      else selectLoop m (result ++ [cand]) cands

def sortByDist (cands : List (Cand Score)) : List (Cand Score) :=
  cands.insertionSort fun a b => ¬ b.dist < a.dist

/-- The neighbour heuristic: prefer candidates that are closer to the query than to any already selected. -/
def selectNeighbors (cands : List (Cand Score)) (m : Nat) : Except Error (List (Cand Score)) :=
  selectLoop metric s m [] (sortByDist cands)

/-! ### Linking -/

def pushLink (h : HnswIndex) (a b l : Nat) : Except Error HnswIndex := do
  let links ← h.getLinks a l
  pure (h.setLinks a l (links ++ [b]))

def connect (h : HnswIndex) (a b layer : Nat) : Except Error HnswIndex := do
  let h ← h.pushLink a b layer
  h.pushLink b a layer

/-- Cut an overfull link list down to a selection of itself; the other side keeps its link. -/
def prune (h : HnswIndex) (id layer cap : Nat) : Except Error HnswIndex := do
  let lst ← h.getLinks id layer
  if lst.length ≤ cap then pure h
  else
    let v ← s.access id
    let cc ← lst.mapM fun x => do
      let w ← s.access x
      pure (Cand.mk (metric.distance v w) x)
    let kept ← selectNeighbors metric s cc cap
    pure (h.setLinks id layer (kept.map Cand.id))

/-! ### Insertion -/

/-- Make room for a node. -/
def reserve (h : HnswIndex) (id : Nat) : HnswIndex :=
  { h with
    nodes := h.nodes ++ List.replicate (id + 1 - h.nodes.length) {}
    built := h.built ++ List.replicate (id + 1 - h.built.length) false }

/-- Give a node the next level, with no links yet. -/
def place (h : HnswIndex) (params : HnswParams) (id : Nat) : HnswIndex :=
  let level := params.levels h.drawn
  { h with
    nodes := h.nodes.set id ⟨level, List.replicate (level + 1) []⟩
    built := h.built.set id true
    drawn := h.drawn + 1 }

/-- Link a node into one layer: search it, select, connect both ways, prune the neighbours. What was found
is where the next layer's search enters, unless nothing was. -/
def linkLayer (params : HnswParams) (q : Vec) (id : Nat)
    (st : HnswIndex × List (Cand Score) × Visited) (lc : Nat) :
    Except Error (HnswIndex × List (Cand Score) × Visited) := do
  let (h, entries, vis) := st
  let (w, vis) ← searchLayer metric s h q entries params.efConstruction lc none vis
  let neighbors ← selectNeighbors metric s w params.M
  let h ← neighbors.foldlM (fun h nb => h.connect id nb.id lc) h
  let h ← neighbors.foldlM (fun h nb => h.prune metric s nb.id lc (maxLinks params lc)) h
  pure (h, if w.isEmpty then entries else w, vis)

/-- Zoom in through the layers from `hi` down to `lo`. -/
def descend (h : HnswIndex) (q : Vec) (ep : Nat) (hi lo : Nat) : Except Error (Cand Score) := do
  let d ← distTo metric s q ep
  (layersDown hi lo).foldlM (fun best lc => h.greedyUpper metric s q best lc) ⟨d, ep⟩

def add (h : HnswIndex) (params : HnswParams) (id : Nat) : Except Error HnswIndex := do
  let h := if h.nodes.length < id + 1 then h.reserve id else h
  match h.built[id]? with
  | none => .error .outOfRange
  -- a revived slot keeps its place in the graph
  | some true => pure h
  | some false =>
    let q ← s.access id
    let level := params.levels h.drawn
    let h := h.place params id
    match h.entryPoint with
    | none => pure { h with entryPoint := some id, maxLevel := level }
    | some ep =>
      let vis := Visited.ensure {} h.nodes.length
      let best ← h.descend metric s q ep h.maxLevel.toNat (level + 1)
      let start := (min (level : Int) h.maxLevel).toNat
      let (h, _, _) ← (layersDown start 0).foldlM (linkLayer metric s params q id) (h, [best], vis)
      pure (if (level : Int) > h.maxLevel then { h with maxLevel := level, entryPoint := some id } else h)

/-! ### Queries -/

def search (h : HnswIndex) (query : Vec) (k : Nat) (params : SearchParams) :
    Except Error (List (SearchResult Score)) :=
  if k = 0 then pure []
  else match h.entryPoint with
    | none => pure []
    | some ep => do
      let vis := Visited.ensure {} h.nodes.length
      let best ← h.descend metric s query ep h.maxLevel.toNat 1
      let (w, _) ← h.searchLayer metric s query [best] (max params.ef k) 0 params.allowed vis
      pure (((sortByDist w).take k).map fun c => ⟨c.id, c.dist⟩)

end HnswIndex

end ToyVdb
