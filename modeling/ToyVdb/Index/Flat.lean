import ToyVdb.Index.Bitset
import ToyVdb.Store.Model
import ToyVdb.Lib.Heap
import ToyVdb.Lib.Outcome

/-!
# The exact index

`FlatIndex` keeps the internal ids it was given and scans them all, with a bounded max-heap for the k
closest. It is the oracle the approximate index is measured against.

Vectors are read back from the store, whose `get` asserts that the slot exists; `access` is that read with
its assertion.
-/

namespace ToyVdb

/-- Parameters of a single search: the breadth (used by HNSW only) and the allowed set, if there is one. -/
structure SearchParams where
  ef : Nat := 64
  allowed : Option Bitset := none

namespace VectorStore

def access (s : VectorStore) (id : Nat) : Except Error Vec :=
  if id < s.slotCount then .ok (s.get id) else .error .outOfRange

/-- A slot a search may return: live, and in the allowed set if there is one. -/
def admits (s : VectorStore) (allowed : Option Bitset) (id : Nat) : Bool :=
  s.isLive id && match allowed with
    | none => true
    | some set => set.test id

theorem access_ok {s : VectorStore} {id : Nat} (h : id < s.slotCount) : s.access id = .ok (s.get id) :=
  if_pos h

end VectorStore

structure FlatIndex where
  ids : List Nat := []
deriving DecidableEq

namespace FlatIndex

section Search

variable {Score : Type} [LT Score] [DecidableLT Score] (metric : Metric Score) (s : VectorStore)

/-- Makes the largest distance the top of the heap. -/
def worse (a b : SearchResult Score) : Prop := a.score < b.score

instance : DecidableRel (@worse Score _) := fun a b => inferInstanceAs (Decidable (a.score < b.score))

/-- One round of the scan. -/
def scan (query : Vec) (k : Nat) (params : SearchParams) (heap : List (SearchResult Score)) (id : Nat) :
    Except Error (List (SearchResult Score)) :=
  if s.admits params.allowed id then do
    let v ← s.access id
    pure (PriorityQueue.offer worse k heap ⟨id, metric.distance query v⟩)
  else pure heap

/-- The heap is drained from the back, so the results ascend. -/
def search (index : FlatIndex) (query : Vec) (k : Nat) (params : SearchParams) :
    Except Error (List (SearchResult Score)) :=
  if k = 0 then pure []
  else do
    let heap ← index.ids.foldlM (scan metric s query k params) []
    pure heap.reverse

end Search

/-- The index reads vectors from the store, so only the id is kept. -/
def add (index : FlatIndex) (id : Nat) : FlatIndex := ⟨index.ids ++ [id]⟩

def remove (index : FlatIndex) (id : Nat) : FlatIndex := ⟨index.ids.filter (· ≠ id)⟩

/-! ### What a scan returns -/

variable {Score : Type} [LinearOrder Score] {metric : Metric Score} {s : VectorStore}

/-- What a slot contributes to a scan. -/
def hit (metric : Metric Score) (s : VectorStore) (query : Vec) (id : Nat) : SearchResult Score :=
  ⟨id, metric.distance query (s.get id)⟩

omit [LinearOrder Score] in
theorem foldlM_admitted {σ : Type} (put : σ → SearchResult Score → σ) (query : Vec) (allowed : Option Bitset)
    (ids : List Nat) (hids : ∀ id ∈ ids, s.isLive id = true → id < s.slotCount) (st : σ) :
    ids.foldlM (fun st id => if s.admits allowed id then do
        let v ← s.access id
        pure (put st ⟨id, metric.distance query v⟩)
      else pure st) st =
      (.ok (((ids.filter (s.admits allowed)).map (hit metric s query)).foldl put st) : Except Error σ) := by
  induction ids generalizing st with
  | nil => rfl
  | cons id ids ih =>
      obtain ⟨hid, hids⟩ := List.forall_mem_cons.mp hids
      rw [List.foldlM_cons]
      by_cases hallow : s.admits allowed id = true
      · have hlive : s.isLive id = true := (Bool.and_eq_true_iff.mp hallow).1
        rw [if_pos hallow, VectorStore.access_ok (hid hlive), List.filter_cons_of_pos hallow]
        exact ih hids _
      · rw [if_neg hallow, List.filter_cons_of_neg hallow]
        exact ih hids st

theorem foldlM_scan (query : Vec) (k : Nat) (params : SearchParams) (ids : List Nat)
    (hids : ∀ id ∈ ids, s.isLive id = true → id < s.slotCount) (heap : List (SearchResult Score)) :
    ids.foldlM (scan metric s query k params) heap =
      .ok (((ids.filter (s.admits params.allowed)).map (hit metric s query)).foldl
        (PriorityQueue.offer worse k) heap) :=
  foldlM_admitted (PriorityQueue.offer worse k) query params.allowed ids hids heap

theorem search_keeps (index : FlatIndex) (metric : Metric Score) (query : Vec) {k : Nat}
    (hk : k ≠ 0) (params : SearchParams)
    (hids : ∀ id ∈ index.ids, s.isLive id = true → id < s.slotCount) :
    ∃ heap, index.search metric s query k params = .ok heap.reverse ∧
      PriorityQueue.Keeps SearchResult.score k
        ((index.ids.filter (s.admits params.allowed)).map (hit metric s query)) heap := by
  refine ⟨_, ?_, Heap.Impl.keeps_foldl SearchResult.score k _⟩
  rw [search, if_neg hk, foldlM_scan query k params index.ids hids]
  rfl

end FlatIndex

end ToyVdb
