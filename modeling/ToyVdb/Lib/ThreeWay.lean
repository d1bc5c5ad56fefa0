import Mathlib.Order.Basic
import Mathlib.Order.Lattice
import Mathlib.Tactic.Common

/-!
# Three-way comparison

The sign of a comparison, as C programs return it. In a linear order it changes sign when the operands are
swapped, and each of the six relations can be read off it.
-/

namespace ThreeWay

variable {α : Type} [LinearOrder α] (x y : α)

/-- Negative, positive, or zero when neither is less than the other. -/
def sign : Int := if x < y then -1 else if y < x then 1 else 0

theorem sign_lt_zero_iff : sign x y < 0 ↔ x < y := by
  rw [sign]
  split_ifs with hlt hgt
  · simpa using hlt
  · simpa using hgt.le
  · simpa using not_lt.mp hlt

theorem zero_lt_sign_iff : 0 < sign x y ↔ y < x := by
  rw [sign]
  split_ifs with hlt hgt
  · simpa using hlt.le
  · simpa using hgt
  · simpa using not_lt.mp hgt

theorem sign_le_zero_iff : sign x y ≤ 0 ↔ x ≤ y := by
  rw [← not_lt, zero_lt_sign_iff, not_lt]

theorem zero_le_sign_iff : 0 ≤ sign x y ↔ y ≤ x := by
  rw [← not_lt, sign_lt_zero_iff, not_lt]

theorem sign_zero_iff : sign x y = 0 ↔ x = y := by
  rw [le_antisymm_iff, le_antisymm_iff, sign_le_zero_iff, zero_le_sign_iff]

theorem sign_swap : sign y x = -sign x y := by
  rw [sign, sign]
  split_ifs with hgt hlt
  · exact absurd hlt (lt_asymm hgt)
  · rfl
  · rfl
  · rfl

end ThreeWay
