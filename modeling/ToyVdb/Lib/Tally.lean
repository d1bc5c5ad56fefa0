import ToyVdb.Lib.Float64
import ToyVdb.Lib.IeeeBounds

/-!
# Counting in floating point

A counter that goes up and down by one is exact as long as it fits into the mantissa, and beyond that it stays where
it is. The squares of two counters can be taken in a wider format without rounding.
-/

namespace Ieee

open Float.Model (Format)

/-! ### Counters with bounds -/

/-- Add, within bounds. -/
def tallyStep (bound c s : ℤ) : ℤ := max (-bound) (min bound (c + s))

/-- Count from zero, within bounds. -/
def tally (bound : ℤ) (signs : List ℤ) : ℤ := signs.foldl (tallyStep bound) 0

theorem tally_concat (bound : ℤ) (signs : List ℤ) (s : ℤ) :
    tally bound (signs ++ [s]) = tallyStep bound (tally bound signs) s := by
  rw [tally, List.foldl_append]
  rfl

theorem abs_tally_le {bound : ℤ} (hbound : 0 ≤ bound) (signs : List ℤ) : |tally bound signs| ≤ bound := by
  induction signs using List.reverseRecOn with
  | nil => simpa [tally] using hbound
  | append_singleton signs s _ =>
      rw [tally_concat, abs_le, tallyStep]
      omega

theorem abs_sum_le {signs : List ℤ} (hsigns : ∀ s ∈ signs, s = 1 ∨ s = -1) : |signs.sum| ≤ signs.length := by
  induction signs with
  | nil => simp
  | cons s signs ih =>
      obtain ⟨hs, hrest⟩ := List.forall_mem_cons.mp hsigns
      have hle := abs_le.mp (ih hrest)
      rw [List.sum_cons, List.length_cons, abs_le]
      push_cast
      omega

/-- Nothing is lost before there are more steps than the bound. -/
theorem tally_eq_sum {bound : ℤ} {signs : List ℤ} (hsigns : ∀ s ∈ signs, s = 1 ∨ s = -1)
    (hlength : signs.length ≤ bound) : tally bound signs = signs.sum := by
  induction signs using List.reverseRecOn with
  | nil => rfl
  | append_singleton signs s ih =>
      have hrest : ∀ s ∈ signs, s = 1 ∨ s = -1 := fun s hs => hsigns s (List.mem_append_left _ hs)
      have hle := abs_le.mp (abs_sum_le hsigns)
      rw [List.length_append, List.length_singleton] at hlength hle
      rw [List.sum_append, List.sum_singleton] at hle ⊢
      rw [tally_concat, ih hrest (by push_cast at hlength; omega), tallyStep]
      push_cast at hlength hle
      omega

/-! ### Integers as floats -/

theorem two_pow_le_one {F : Format} {e : ℕ} (hle : e ≤ 2 ^ (F.exponentBits - 1) + F.mantissaBits - 3) :
    2 ^ e ≤ one F := Nat.pow_le_pow_right two_pos hle

theorem two_pow_mul_one_lt_top {F : Format} {e : ℕ}
    (hlt : e + (2 ^ (F.exponentBits - 1) + F.mantissaBits - 3) < 2 ^ F.exponentBits + F.mantissaBits - 3) :
    2 ^ e * one F < top F := by
  rw [one, top, ← pow_add]
  exact Nat.pow_lt_pow_right one_lt_two hlt

namespace Value

variable {F G : Format}

/-- The float of an integer. -/
noncomputable def counted (F : Format) (c : ℤ) : Value F := rounded F (decide (c < 0)) (c.natAbs * one F : ℕ)

theorem counted_zero : counted F 0 = fin false 0 := by
  simp [counted]

section Range

variable (hrange : 2 ^ F.mantissaBits * one F < top F) {c : ℤ} (hc : |c| ≤ 2 ^ F.mantissaBits)

include hc in
theorem natAbs_le_of_abs_le : c.natAbs ≤ 2 ^ F.mantissaBits := by
  rw [Int.abs_eq_natAbs] at hc
  exact_mod_cast hc

include hrange hc in
theorem exists_counted :
    ∃ m : Magnitude F, counted F c = fin (decide (c < 0)) m ∧ m.units = c.natAbs * one F ∧
      signed (decide (c < 0)) m = c * one F := by
  have hnat := natAbs_le_of_abs_le hc
  have hfits : Rounding.Fits F.mantissaBits (c.natAbs * one F) := Rounding.fits_mul_two_pow (mantissaBits_pos F) hnat _
  have hlt : c.natAbs * one F < top F := (Nat.mul_le_mul_right _ hnat).trans_lt hrange
  refine ⟨⟨_, hfits, hlt⟩, rounded_of_fits _ hfits hlt, rfl, ?_⟩
  rcases lt_or_ge c 0 with hneg | hpos
  · simp only [signed, decide_eq_true hneg, if_true]
    push_cast
    rw [abs_of_neg hneg]
    ring
  · simp only [signed, decide_eq_false (not_lt.mpr hpos), Bool.false_eq_true, if_false]
    push_cast
    rw [abs_of_nonneg hpos]

theorem rounded_past (neg : Bool) :
    rounded F neg ((2 ^ F.mantissaBits + 1) * one F : ℕ) = rounded F neg (2 ^ F.mantissaBits * one F : ℕ) := by
  have hround : Rounding.round F.mantissaBits ((2 ^ F.mantissaBits + 1) * one F : ℕ) = 2 ^ F.mantissaBits * one F := by
    rw [one, add_mul, one_mul, ← pow_add, Nat.add_comm F.mantissaBits]
    exact Rounding.round_two_pow_add (two_le_mantissaBits F) _
  rw [← rounded_round, hround]

include hrange hc in
theorem add_counted {s : ℤ} (hs : s = 1 ∨ s = -1) :
    (counted F c).add (counted F s) = counted F (tallyStep (2 ^ F.mantissaBits) c s) := by
  have hone : (0 : ℤ) < one F := by exact_mod_cast one_pos F
  have hlarge : (4 : ℤ) ≤ 2 ^ F.mantissaBits := by
    have hpow := Nat.pow_le_pow_right two_pos (two_le_mantissaBits F)
    exact_mod_cast hpow
  obtain ⟨x, hx, -, hxs⟩ := exists_counted hrange hc
  obtain ⟨y, hy, -, hys⟩ := exists_counted (c := s) hrange (by rw [abs_le]; omega)
  have hc' := abs_le.mp hc
  rw [hx, hy]
  simp only [add, hxs, hys, ← Int.add_mul]
  split
  · rename_i hzero
    have hsum : c + s = 0 := (mul_eq_zero.mp hzero).resolve_right hone.ne'
    have hsign : (decide (c < 0) && decide (s < 0)) = false := by
      rw [Bool.and_eq_false_iff, decide_eq_false_iff_not, decide_eq_false_iff_not]
      omega
    rw [hsign, tallyStep, hsum, max_eq_right (by omega), min_eq_right (by omega), counted_zero]
  · have hneg : ((c + s) * (one F : ℤ) < 0) = (c + s < 0) := by
      rw [eq_iff_iff, mul_neg_iff]
      omega
    rw [Int.natAbs_mul, Int.natAbs_natCast, counted]
    simp only [hneg]
    by_cases hroom : |c + s| ≤ 2 ^ F.mantissaBits
    · have hstep : tallyStep (2 ^ F.mantissaBits) c s = c + s := by
        have hroom' := abs_le.mp hroom
        rw [tallyStep]
        omega
      rw [hstep]
    · -- one past the mantissa: halfway, and the even neighbour is the old number
      have hpast : (c + s).natAbs = 2 ^ F.mantissaBits + 1 ∧ tallyStep (2 ^ F.mantissaBits) c s = c ∧
          c.natAbs = 2 ^ F.mantissaBits ∧ (c + s < 0 ↔ c < 0) := by
        rw [abs_le, not_and_or] at hroom
        have hcast : ((2 ^ F.mantissaBits : ℕ) : ℤ) = 2 ^ F.mantissaBits := by norm_cast
        refine ⟨by omega, ?_, by omega, by omega⟩
        rw [tallyStep]
        omega
      rw [hpast.1, hpast.2.1, hpast.2.2.1, rounded_past]
      simp only [hpast.2.2.2]

include hrange hc in
theorem convert_counted : (counted F c).convert G = counted G c := by
  obtain ⟨m, hm, hunits, -⟩ := exists_counted hrange hc
  have hone : (one F : ℝ) ≠ 0 := by exact_mod_cast (one_pos F).ne'
  rw [hm, convert, hunits, counted]
  congr 1
  push_cast
  rw [mul_div_cancel_right₀ _ hone]

include hrange hc in
theorem mul_self_counted : (counted F c).mul (counted F c) = capped F (c.natAbs ^ 2 * one F) := by
  obtain ⟨m, hm, hunits, -⟩ := exists_counted hrange hc
  have hone : (one F : ℝ) ≠ 0 := by exact_mod_cast (one_pos F).ne'
  rw [hm, mul, bne_self_eq_false, hunits, capped]
  congr 1
  push_cast
  rw [div_eq_iff hone]
  ring

end Range

end Value

end Ieee
