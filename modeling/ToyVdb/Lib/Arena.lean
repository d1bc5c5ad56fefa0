import Mathlib.Tactic.Linarith
import Mathlib.Tactic.Ring

/-!
# Rows in a flat array

A table of rows of one width `d`, stored one after the other in a single array: row `i` occupies the
positions from `i * d` up to `(i + 1) * d`. Reading is taking a slice, writing is copying over the
array from the row's first position on, and appending a row is appending to the array. The lemmas say
that a write of a full row changes that row and no other.
-/

namespace Arena

variable {α : Type}

/-- The `d` elements of row `i`. -/
def row (a : List α) (d i : Nat) : List α := (a.drop (i * d)).take d

/-- Copy `v` over the array from position `offset` on. -/
def copyTo (a : List α) (offset : Nat) (v : List α) : List α :=
  a.take offset ++ v ++ a.drop (offset + v.length)

theorem length_row {a : List α} {d i : Nat} (h : (i + 1) * d ≤ a.length) : (row a d i).length = d := by
  rw [row, List.length_take, List.length_drop]
  have hsucc : (i + 1) * d = i * d + d := by ring
  omega

theorem length_copyTo {a v : List α} {offset : Nat} (h : offset + v.length ≤ a.length) :
    (copyTo a offset v).length = a.length := by
  simp only [copyTo, List.length_append, List.length_take, List.length_drop]
  omega

theorem length_le_length_copyTo (a v : List α) (offset : Nat) (h : offset ≤ a.length) :
    a.length ≤ (copyTo a offset v).length := by
  simp only [copyTo, List.length_append, List.length_take, List.length_drop]
  omega

theorem getElem?_copyTo {a v : List α} {offset i : Nat} (h : offset + v.length ≤ a.length)
    (hi : i < offset ∨ offset + v.length ≤ i) : (copyTo a offset v)[i]? = a[i]? := by
  have hkept : (a.take offset).length = offset := by
    rw [List.length_take]
    omega
  rw [copyTo, List.append_assoc]
  rcases hi with hbefore | hbehind
  · rw [List.getElem?_append_left (by omega), List.getElem?_take_of_lt hbefore]
  · rw [List.getElem?_append_right (by omega), List.getElem?_append_right (by omega), List.getElem?_drop, hkept]
    congr 1
    omega

theorem row_append_of_le {a v : List α} {d i : Nat} (h : (i + 1) * d ≤ a.length) :
    row (a ++ v) d i = row a d i := by
  have hsucc : (i + 1) * d = i * d + d := by ring
  have hdrop : i * d ≤ a.length := by omega
  have htake : d ≤ (a.drop (i * d)).length := by
    rw [List.length_drop]
    omega
  rw [row, row, List.drop_append_of_le_length hdrop, List.take_append_of_le_length htake]

theorem row_append_last {a v : List α} {d i : Nat} (ha : a.length = i * d) (hv : v.length = d) :
    row (a ++ v) d i = v := by
  rw [row, List.drop_left' ha, ← hv, List.take_length]

theorem row_copyTo_self {a v : List α} {d i : Nat} (h : i * d ≤ a.length) (hv : v.length = d) :
    row (copyTo a (i * d) v) d i = v := by
  have hkept : (a.take (i * d)).length = i * d := by
    rw [List.length_take]
    omega
  rw [row, copyTo, List.append_assoc, List.drop_left' hkept, List.take_left' hv]

theorem row_copyTo_of_ne {a v : List α} {d i j : Nat} (h : (i + 1) * d ≤ a.length) (hv : v.length = d)
    (hne : j ≠ i) : row (copyTo a (i * d) v) d j = row a d j := by
  have hsucc : (i + 1) * d = i * d + d := by ring
  have hkept : (a.take (i * d)).length = i * d := by
    rw [List.length_take]
    omega
  rcases Nat.lt_or_gt_of_ne hne with hlt | hgt
  · -- an earlier row lies inside the kept front part
    have hbefore : (j + 1) * d ≤ i * d := Nat.mul_le_mul_right d hlt
    have hsplit : a = a.take (i * d) ++ a.drop (i * d) := (List.take_append_drop _ _).symm
    rw [copyTo, List.append_assoc, row_append_of_le (by omega)]
    conv_rhs => rw [hsplit, row_append_of_le (by omega)]
  · -- a later row starts behind the copied elements
    have hafter : (i + 1) * d ≤ j * d := Nat.mul_le_mul_right d hgt
    have hfront : (a.take (i * d) ++ v).length = i * d + d := by
      rw [List.length_append, hkept, hv]
    rw [row, row, copyTo, List.drop_append, List.drop_drop, hfront, hv,
      List.drop_eq_nil_of_le (by omega), List.nil_append,
      show i * d + d + (j * d - (i * d + d)) = j * d from by omega]

end Arena
