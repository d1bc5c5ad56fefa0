import Mathlib.Data.List.Sort
import Mathlib.Order.Basic

/-!
# Priority queues and bounded top-k selection

A priority queue over a comparison `less`, kept as a list with its top first. The standard fixes which
element is on top only up to ties; here the latest of the tied elements is.

`offer` is the bounded queue of a top-k scan: once `k` elements are held, a new one replaces the top if it
is less. `Keeps` is the loop invariant of such a scan: what is held and what was dropped together are what
was offered, and nothing held exceeds anything dropped.
-/

namespace PriorityQueue

variable {α κ : Type}

/-! ### Operations -/

section Operations

variable (less : α → α → Prop) [DecidableRel less]

def push (q : List α) (x : α) : List α := q.orderedInsert (fun a b => ¬ less a b) x

/-- Keep at most `k` elements, replacing the top by a lesser newcomer. -/
def offer (k : Nat) (q : List α) (x : α) : List α :=
  if q.length < k then push less q x
  else match q with
    | [] => []
    | top :: rest => if less x top then push less rest x else q

theorem push_perm (q : List α) (x : α) : (push less q x).Perm (x :: q) := List.perm_orderedInsert _ x q

@[simp] theorem length_push (q : List α) (x : α) : (push less q x).length = q.length + 1 :=
  List.orderedInsert_length _ q x

@[simp] theorem mem_push {q : List α} {x y : α} : y ∈ push less q x ↔ y = x ∨ y ∈ q :=
  List.mem_orderedInsert _

theorem foldl_offer_of_room (k : Nat) (xs q : List α) (hroom : q.length + xs.length ≤ k) :
    xs.foldl (offer less k) q = xs.foldl (push less) q := by
  induction xs generalizing q with
  | nil => rfl
  | cons x xs ih =>
      rw [List.length_cons] at hroom
      have hoffer : offer less k q x = push less q x := if_pos (by omega)
      rw [List.foldl_cons, List.foldl_cons, hoffer]
      exact ih _ (by rw [length_push]; omega)

end Operations

/-! ### Queues ordered by a key -/

variable [LinearOrder κ] (key : α → κ)

/-- No element exceeds one before it. -/
def Ordered (q : List α) : Prop := q.Pairwise fun a b => key b ≤ key a

/-- The state of a top-k scan that has been offered `seen`. -/
structure Keeps (k : Nat) (seen q : List α) : Prop where
  ordered : Ordered key q
  length_eq : q.length = min k seen.length
  split : ∃ dropped, seen.Perm (q ++ dropped) ∧ ∀ x ∈ q, ∀ y ∈ dropped, key x ≤ key y

theorem Keeps.of_perm {k : Nat} {seen seen' q : List α} (h : Keeps key k seen q) (hperm : seen'.Perm seen) :
    Keeps key k seen' q where
  ordered := h.ordered
  length_eq := by rw [hperm.length_eq, h.length_eq]
  split := by
    obtain ⟨dropped, hsplit, hle⟩ := h.split
    exact ⟨dropped, hperm.trans hsplit, hle⟩

/-- What a scan keeps, least first, is the beginning of the sorted list of everything it was offered. -/
theorem Keeps.map_key_reverse {k : Nat} {seen q : List α} (h : Keeps key k seen q) :
    q.reverse.map key = ((seen.map key).insertionSort (· ≤ ·)).take k := by
  obtain ⟨dropped, hperm, hle⟩ := h.split
  have hsorted : ((q.reverse.map key) ++ (dropped.map key).insertionSort (· ≤ ·)).Pairwise (· ≤ ·) := by
    rw [List.pairwise_append]
    refine ⟨?_, List.pairwise_insertionSort _ _, fun a ha b hb => ?_⟩
    · rw [List.pairwise_map, List.pairwise_reverse]
      exact h.ordered
    · obtain ⟨x, hx, rfl⟩ := List.mem_map.mp ha
      obtain ⟨y, hy, rfl⟩ := List.mem_map.mp ((List.mem_insertionSort _).mp hb)
      exact hle x (List.mem_reverse.mp hx) y hy
  have hsame : (q.reverse.map key ++ (dropped.map key).insertionSort (· ≤ ·)).Perm
      ((seen.map key).insertionSort (· ≤ ·)) := by
    refine List.Perm.trans ?_ (List.perm_insertionSort _ _).symm
    refine List.Perm.trans ?_ (hperm.map key).symm
    rw [List.map_append]
    exact (q.reverse_perm.map key).append (List.perm_insertionSort _ _)
  rw [← hsame.eq_of_pairwise' hsorted (List.pairwise_insertionSort _ _)]
  have hlen : (q.reverse.map key).length = q.length := by simp
  rcases Nat.lt_or_ge seen.length k with hlt | hge
  · have hnone : dropped = [] := by
      have hperm' := hperm.length_eq
      rw [List.length_append, h.length_eq] at hperm'
      exact List.length_eq_zero_iff.mp (by omega)
    subst hnone
    have hq := h.length_eq
    rw [List.map_nil, List.insertionSort_nil, List.append_nil, List.take_of_length_le (by omega)]
  · have hk : k = (q.reverse.map key).length := by
      rw [hlen, h.length_eq, Nat.min_eq_left hge]
    rw [hk, List.take_left]

/-! ### Ranks -/

theorem exists_le_of_sublist {a b : List κ} (hsub : a.Sublist b) (hb : b.Pairwise (· ≤ ·)) {i : Nat} {x : κ}
    (hx : a[i]? = some x) : ∃ y, b[i]? = some y ∧ y ≤ x := by
  induction hsub generalizing i with
  | slnil => rw [List.getElem?_nil] at hx; cases hx
  | cons z hsub ih =>
      obtain ⟨y, hy, hle⟩ := ih hb.of_cons hx
      cases i with
      | zero => exact ⟨z, rfl, (List.rel_of_pairwise_cons hb (List.mem_of_getElem? hy)).trans hle⟩
      | succ i =>
          obtain ⟨hi, rfl⟩ := List.getElem?_eq_some_iff.mp hy
          have hlt : i < i + 1 := Nat.lt_succ_self i
          refine ⟨_, List.getElem?_eq_getElem (hlt.trans hi), le_trans ?_ hle⟩
          exact List.pairwise_iff_getElem.mp hb.of_cons i (i + 1) _ _ hlt
  | cons_cons z hsub ih =>
      cases i with
      | zero => exact ⟨z, rfl, (Option.some.inj hx).le⟩
      | succ i => exact ih hb.of_cons hx

/-- Of any sorted selection of at most `k` elements, the i-th is no less than the i-th of the k least. -/
theorem exists_le_take_sort {a b : List κ} (hsub : a.Subperm b) (ha : a.Pairwise (· ≤ ·)) {k : Nat}
    (hk : a.length ≤ k) {i : Nat} {x : κ} (hx : a[i]? = some x) :
    ∃ y, ((b.insertionSort (· ≤ ·)).take k)[i]? = some y ∧ y ≤ x := by
  have hsorted := List.pairwise_insertionSort (· ≤ ·) b
  have hsub' : a.Sublist (b.insertionSort (· ≤ ·)) :=
    List.sublist_of_subperm_of_pairwise (hsub.trans (List.perm_insertionSort _ b).symm.subperm) ha hsorted
  have hi : i < k := Nat.lt_of_lt_of_le (List.getElem?_eq_some_iff.mp hx).1 hk
  rw [List.getElem?_take_of_lt hi]
  exact exists_le_of_sublist hsub' hsorted hx

end PriorityQueue
