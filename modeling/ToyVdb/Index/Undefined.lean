import ToyVdb.Index.Hits
import ToyVdb.Index.Distance
import ToyVdb.Lib.Heap
import Mathlib.Order.Basic

/-!
# The exact index with undefined distances

Nothing keeps a NaN or an infinity out of a vector, and a distance to such a vector may be NaN, which compares
false with everything. The comparison the scan gives its heap is then no strict weak order, and what the
standard says about heaps holds only for as long as no undefined score is in it.

The scan is stated here over any heap. What it returns hangs on one thing: an undefined score that comes while
the heap has room is taken in and never leaves, and one that comes later is passed by.
-/

namespace ToyVdb

/-- Scores with an undefined one. -/
inductive WithNaN (κ : Type)
  | val (x : κ)
  | nan
deriving DecidableEq

namespace WithNaN

variable {κ : Type}

/-- No comparison with the undefined score holds. -/
def lt [LT κ] : WithNaN κ → WithNaN κ → Prop
  | val x, val y => x < y
  | _, _ => False

def le [LE κ] : WithNaN κ → WithNaN κ → Prop
  | val x, val y => x ≤ y
  | _, _ => False

instance [LT κ] : LT (WithNaN κ) := ⟨lt⟩

instance [LE κ] : LE (WithNaN κ) := ⟨le⟩

instance [LT κ] [DecidableLT κ] : DecidableLT (WithNaN κ)
  | val x, val y => inferInstanceAs (Decidable (x < y))
  | val _, nan => isFalse id
  | nan, _ => isFalse id

theorem not_lt_nan [LT κ] (x : WithNaN κ) : ¬ x < nan := by
  cases x <;> exact id

theorem not_nan_lt [LT κ] (x : WithNaN κ) : ¬ nan < x := id

variable [LinearOrder κ] {x y : WithNaN κ}

theorem not_lt_iff_le (hx : x ≠ nan) (hy : y ≠ nan) : ¬ x < y ↔ y ≤ x := by
  cases x with
  | nan => exact absurd rfl hx
  | val x =>
      cases y with
      | nan => exact absurd rfl hy
      | val y => exact not_lt

theorem lt_asymm (h : x < y) : ¬ y < x := by
  cases x with
  | nan => exact absurd h (not_nan_lt y)
  | val x =>
      cases y with
      | nan => exact absurd h (not_lt_nan _)
      | val y => exact LT.lt.not_gt h

theorem le_trans {z : WithNaN κ} (hxy : x ≤ y) (hyz : y ≤ z) : x ≤ z := by
  cases x with
  | nan => exact hxy
  | val x =>
      cases y with
      | nan => exact absurd hxy id
      | val y =>
          cases z with
          | nan => exact hyz
          | val z => exact LE.le.trans (b := y) hxy hyz

end WithNaN

/-! ### Squared distance with NaN and infinity -/

def IsNaN (bits : UInt32) : Prop := bits.toNat / 2 ^ 23 % 2 ^ 8 = 255 ∧ bits.toNat % 2 ^ 23 ≠ 0

def IsInfinite (bits : UInt32) : Prop := bits.toNat / 2 ^ 23 % 2 ^ 8 = 255 ∧ bits.toNat % 2 ^ 23 = 0

instance (bits : UInt32) : Decidable (IsNaN bits) := inferInstanceAs (Decidable (_ ∧ _))

instance (bits : UInt32) : Decidable (IsInfinite bits) := inferInstanceAs (Decidable (_ ∧ _))

/-- The square of the difference of two components, an infinite one being twice the largest power of two;
that of two like infinities is undefined. -/
def squaredDifference (a b : UInt32) : WithNaN Int :=
  if IsNaN a ∨ IsNaN b ∨ IsInfinite a ∧ a = b then .nan
  else .val ((floatUnits a - floatUnits b) * (floatUnits a - floatUnits b))

def WithNaN.add : WithNaN Int → WithNaN Int → WithNaN Int
  | .val x, .val y => .val (x + y)
  | _, _ => .nan

/-- The L2 policy on all bit patterns, without rounding and overflow. -/
def l2NaN : Metric (WithNaN Int) where
  distance a b := (List.zipWith squaredDifference a b).foldl WithNaN.add (.val 0)
  maxScore := .val l2.maxScore

namespace FlatIndex

/-! ### The scan over any heap -/

section Search

variable {Score : Type} [LT Score] [DecidableLT Score] (impl : Heap.Impl (SearchResult Score) worse)
  (metric : Metric Score) (s : VectorStore)

def scanWith (query : Vec) (k : Nat) (params : SearchParams) (heap : impl.State) (id : Nat) :
    Except Error impl.State :=
  if s.admits params.allowed id then do
    let v ← s.access id
    pure (impl.offer k heap ⟨id, metric.distance query v⟩)
  else pure heap

def searchWith (index : FlatIndex) (query : Vec) (k : Nat) (params : SearchParams) :
    Except Error (List (SearchResult Score)) :=
  if k = 0 then pure []
  else do
    let heap ← index.ids.foldlM (scanWith impl metric s query k params) impl.empty
    pure (impl.drain (impl.items heap).length heap)

variable {metric s}

theorem scanWith_sorted (query : Vec) (k : Nat) (params : SearchParams) :
    scanWith (Heap.Impl.sorted worse) metric s query k params = scan metric s query k params := by
  funext heap id
  unfold scanWith scan
  split_ifs
  · congr 1
    funext v
    exact congrArg pure (Heap.Impl.sorted_offer worse k heap _)
  · rfl

theorem searchWith_sorted (index : FlatIndex) (query : Vec) (k : Nat) (params : SearchParams) :
    index.searchWith (Heap.Impl.sorted worse) metric s query k params =
      index.search metric s query k params := by
  unfold searchWith search
  split_ifs
  · rfl
  · rw [scanWith_sorted]
    congr 1
    funext heap
    exact congrArg pure (Heap.Impl.sorted_drain worse heap)

/-- What the admitted ones of the given slots contribute, in the order of the scan. -/
def offered (metric : Metric Score) (s : VectorStore) (query : Vec) (allow : Nat → Bool) (ids : List Nat) :
    List (SearchResult Score) := (ids.filter allow).map (hit metric s query)

omit [LT Score] [DecidableLT Score] in
theorem map_id_offered (query : Vec) (allow : Nat → Bool) (ids : List Nat) :
    (offered metric s query allow ids).map SearchResult.id = ids.filter allow := by
  rw [offered, List.map_map]
  exact List.map_id' _

theorem foldlM_scanWith (query : Vec) (k : Nat) (params : SearchParams) (ids : List Nat)
    (hids : ∀ id ∈ ids, s.isLive id = true → id < s.slotCount) (heap : impl.State) :
    ids.foldlM (scanWith impl metric s query k params) heap =
      .ok ((offered metric s query (s.admits params.allowed) ids).foldl (impl.offer k) heap) :=
  foldlM_admitted (impl.offer k) query params.allowed ids hids heap

end Search

/-! ### Undefined scores -/

variable {κ : Type} [LinearOrder κ] {metric : Metric (WithNaN κ)} {s : VectorStore} {query : Vec}
  {allow : Nat → Bool} {k : Nat} {ids : List Nat}

/-- The hit has a score that is not NaN. -/
def Defined (hit : SearchResult (WithNaN κ)) : Prop := hit.score ≠ .nan

instance : DecidablePred (@Defined κ) := fun hit => inferInstanceAs (Decidable (hit.score ≠ .nan))

/-- The k closest of the admitted slots whose distance is defined, with their distances, closest first. -/
structure ExactDefined (metric : Metric (WithNaN κ)) (s : VectorStore) (query : Vec)
    (allow : Nat → Bool) (k : Nat)
    (hits : List (SearchResult (WithNaN κ))) : Prop where
  length_eq : hits.length = k
  nodup : (hits.map SearchResult.id).Nodup
  admitted : ∀ hit ∈ hits, allow hit.id = true
  score_eq : ∀ hit ∈ hits, hit.score = metric.distance query (s.get hit.id)
  defined : ∀ hit ∈ hits, Defined hit
  ascending : hits.Pairwise fun a b => a.score ≤ b.score
  nearest : ∀ id, allow id = true → Defined (hit metric s query id) → id ∉ hits.map SearchResult.id →
    ∀ hit ∈ hits, hit.score ≤ metric.distance query (s.get id)

theorem weakOrderOn_defined : Heap.WeakOrderOn worse (@Defined κ) where
  asymm x y _ _ hless := WithNaN.lt_asymm hless
  trans x y z hx hy hz hxy hyz := by
    rw [worse, WithNaN.not_lt_iff_le] at *
    · exact WithNaN.le_trans hyz hxy
    all_goals assumption

theorem not_worse_of_undefined {x : SearchResult (WithNaN κ)} (hx : ¬ Defined x)
    (y : SearchResult (WithNaN κ)) :
    ¬ worse x y ∧ ¬ worse y x := by
  rw [worse, worse, not_not.mp hx]
  exact ⟨WithNaN.not_nan_lt _, WithNaN.not_lt_nan _⟩

/-- The least of what was offered with a defined score, in order, are the closest of the admitted slots. -/
theorem exactDefined_of_perm (hnodup : ids.Nodup) (hall : ∀ id, allow id = true → id ∈ ids)
    {hits dropped : List (SearchResult (WithNaN κ))}
    (hperm : ((offered metric s query allow ids).filter (Defined ·)).Perm (hits ++ dropped))
    (hle : ∀ x ∈ hits, ∀ y ∈ dropped, ¬ worse y x) (hsorted : hits.Pairwise fun x y => ¬ worse y x) :
    ExactDefined metric s query allow hits.length hits := by
  have hmem : ∀ hit ∈ hits, hit ∈ (offered metric s query allow ids).filter (Defined ·) :=
    fun hit hhit => hperm.mem_iff.mpr (List.mem_append_left _ hhit)
  have hdefined : ∀ hit ∈ hits, Defined hit :=
    fun hit hhit => of_decide_eq_true (List.mem_filter.mp (hmem hit hhit)).2
  have hoffered : ∀ hit ∈ hits, allow hit.id = true ∧ hit.score = metric.distance query (s.get hit.id) := by
    intro hit hhit
    obtain ⟨id, hid, rfl⟩ := List.mem_map.mp (List.mem_filter.mp (hmem hit hhit)).1
    exact ⟨(List.mem_filter.mp hid).2, rfl⟩
  refine ⟨rfl, ?_, fun hit hhit => (hoffered hit hhit).1, fun hit hhit => (hoffered hit hhit).2, hdefined, ?_,
    fun id hallow hid hout hit hhit => ?_⟩
  · have hseen : (((offered metric s query allow ids).filter (Defined ·)).map SearchResult.id).Nodup := by
      refine List.Nodup.sublist (List.filter_sublist.map _) ?_
      rw [map_id_offered]
      exact hnodup.filter _
    rw [(hperm.map _).nodup_iff, List.map_append] at hseen
    exact (List.nodup_append.mp hseen).1
  · apply hsorted.imp_of_mem
    intro x y hx hy hnot
    exact (WithNaN.not_lt_iff_le (hdefined y hy) (hdefined x hx)).mp hnot
  · -- a slot that is not among the hits was dropped
    have hmem' : FlatIndex.hit metric s query id ∈ (offered metric s query allow ids).filter (Defined ·) :=
      List.mem_filter.mpr
        ⟨List.mem_map_of_mem (List.mem_filter.mpr ⟨hall id hallow, hallow⟩), decide_eq_true hid⟩
    have hdropped := (List.mem_append.mp (hperm.mem_iff.mp hmem')).resolve_left fun hhits =>
      hout (List.mem_map_of_mem (f := SearchResult.id) hhits)
    exact (WithNaN.not_lt_iff_le hid (hdefined hit hhit)).mp (hle hit hhit _ hdropped)

/-- A scan that has k defined distances to choose from returns the closest of them if and only if none of the
first k slots it takes in has an undefined one. -/
theorem searchWith_exact_iff (impl : Heap.Impl (SearchResult (WithNaN κ)) worse) (index : FlatIndex)
    (params : SearchParams) (hk : k ≠ 0) (hnodup : index.ids.Nodup)
    (hall : ∀ id, s.admits params.allowed id = true → id ∈ index.ids)
    (hlt : ∀ id, s.isLive id = true → id < s.slotCount)
    (hmany : k ≤ ((offered metric s query (s.admits params.allowed) index.ids).filter (Defined ·)).length) :
    (∃ hits, index.searchWith impl metric s query k params = .ok hits ∧
        ExactDefined metric s query (s.admits params.allowed) k hits) ↔
      ∀ hit ∈ (offered metric s query (s.admits params.allowed) index.ids).take k, Defined hit := by
  obtain ⟨heap, hheap⟩ : ∃ heap, heap =
      (offered metric s query (s.admits params.allowed) index.ids).foldl (impl.offer k) impl.empty := ⟨_, rfl⟩
  have hsearch : index.searchWith impl metric s query k params =
      .ok (impl.drain (impl.items heap).length heap) := by
    rw [searchWith, if_neg hk, foldlM_scanWith impl query k params index.ids fun id _ => hlt id, hheap]
    rfl
  constructor
  · rintro ⟨hits, hhits, hexact⟩ hit hhit
    rw [hsearch] at hhits
    cases hhits
    by_contra hnot
    have hkept := Heap.Impl.mem_foldl_of_take impl (fun y => (not_worse_of_undefined hnot y).2) hhit
    rw [← hheap] at hkept
    exact hnot (hexact.defined hit ((impl.drain_perm _ _ rfl).mem_iff.mpr hkept))
  · intro hearly
    have hlen := hmany.trans (List.length_filter_le _ _)
    have hsel := Heap.Impl.selects_foldl impl weakOrderOn_defined
      (fun x _ hx y => (not_worse_of_undefined hx y).1) hearly hlen
    rw [← hheap] at hsel
    obtain ⟨dropped, hperm, hle, hsorted, hlength⟩ := hsel.drain
    have hexact := exactDefined_of_perm hnodup hall hperm hle hsorted
    rw [hlength, Nat.min_eq_left hmany] at hexact
    exact ⟨_, hsearch, hexact⟩

end FlatIndex

end ToyVdb
