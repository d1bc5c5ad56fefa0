import ToyVdb.Metadata
import Mathlib.Tactic.Ring
import Mathlib.Algebra.Order.Ring.Nat

/-!
# Integers as doubles

The conversion of a 64-bit integer to a double keeps the order, but not every difference: from `2^53` on,
integers that are close to each other are rounded to the same double.
-/

namespace ToyVdb

namespace Double

/-! ### Rounding half to even -/

/-- Whether a number is rounded up to the next multiple of the unit. -/
def roundsUp (unit n : Nat) : Bool :=
  decide (unit < 2 * (n % unit)) || (decide (2 * (n % unit) = unit) && decide (n / unit % 2 = 1))

/-- The nearest multiple of the unit, in units; the even one of two that are as near. -/
def halfEven (unit n : Nat) : Nat := n / unit + (roundsUp unit n).toNat

theorem halfEven_le (unit n : Nat) : halfEven unit n ≤ n / unit + 1 := by
  have hup : (roundsUp unit n).toNat ≤ 1 := Bool.toNat_le _
  rw [halfEven]
  omega

theorem roundsUp_mono {unit m n : Nat} (hle : m ≤ n) (hsame : m / unit = n / unit)
    (hm : roundsUp unit m = true) :
    roundsUp unit n = true := by
  have hrem : m % unit ≤ n % unit := by
    have hm := Nat.div_add_mod m unit
    have hn := Nat.div_add_mod n unit
    rw [hsame] at hm
    omega
  rw [roundsUp, Bool.or_eq_true, Bool.and_eq_true, decide_eq_true_iff, decide_eq_true_iff,
    decide_eq_true_iff] at hm ⊢
  omega

theorem halfEven_mono (unit : Nat) {m n : Nat} (hle : m ≤ n) : halfEven unit m ≤ halfEven unit n := by
  rcases (Nat.div_le_div_right hle : m / unit ≤ n / unit).lt_or_eq with hlt | hsame
  · have hm := halfEven_le unit m
    have hn : n / unit ≤ halfEven unit n := Nat.le_add_right _ _
    omega
  · rw [halfEven, halfEven, hsame]
    cases hm : roundsUp unit m with
    | false => exact Nat.add_le_add_left (Nat.zero_le _) _
    | true => rw [roundsUp_mono hle hsame hm]

/-! ### Naturals -/

/-- The mantissa with its leading bit, from `2^52` to `2^53`. -/
def mantissa (n : Nat) : Nat :=
  if Nat.log2 n ≤ 52 then n * 2 ^ (52 - Nat.log2 n) else halfEven (2 ^ (Nat.log2 n - 52)) n

theorem ofNat_eq {n : Nat} (hn : n ≠ 0) : ofNat n = (Nat.log2 n + 1022) * 2 ^ 52 + mantissa n := by
  by_cases hsmall : Nat.log2 n ≤ 52
  · simp only [ofNat, mantissa, if_neg hn, if_pos hsmall]
  · simp only [ofNat, mantissa, if_neg hn, if_neg hsmall, halfEven, roundsUp, Nat.add_assoc]

theorem mantissa_bounds {n : Nat} (hn : n ≠ 0) : 2 ^ 52 ≤ mantissa n ∧ mantissa n ≤ 2 ^ 53 := by
  have hlow : 2 ^ Nat.log2 n ≤ n := Nat.log2_self_le hn
  have hhigh : n < 2 ^ (Nat.log2 n + 1) := Nat.lt_log2_self
  rw [mantissa]
  split_ifs with hsmall
  · have hpow : 2 ^ Nat.log2 n * 2 ^ (52 - Nat.log2 n) = 2 ^ 52 := by
      rw [← pow_add]
      congr 1
      omega
    have hpow' : 2 ^ (Nat.log2 n + 1) * 2 ^ (52 - Nat.log2 n) = 2 ^ 53 := by
      rw [← pow_add]
      congr 1
      omega
    exact ⟨hpow ▸ Nat.mul_le_mul_right _ hlow, hpow' ▸ Nat.mul_le_mul_right _ hhigh.le⟩
  · have hpow : 2 ^ 52 * 2 ^ (Nat.log2 n - 52) = 2 ^ Nat.log2 n := by
      rw [← pow_add]
      congr 1
      omega
    have hpow' : 2 ^ 53 * 2 ^ (Nat.log2 n - 52) = 2 ^ (Nat.log2 n + 1) := by
      rw [← pow_add]
      congr 1
      omega
    have hunit : 0 < 2 ^ (Nat.log2 n - 52) := Nat.two_pow_pos _
    have hfloor : 2 ^ 52 ≤ n / 2 ^ (Nat.log2 n - 52) := by
      rw [Nat.le_div_iff_mul_le hunit, hpow]
      exact hlow
    have hceil : n / 2 ^ (Nat.log2 n - 52) < 2 ^ 53 := by
      rw [Nat.div_lt_iff_lt_mul hunit, hpow']
      exact hhigh
    exact ⟨hfloor.trans (Nat.le_add_right _ _), (halfEven_le _ n).trans hceil⟩

theorem ofNat_bounds {n : Nat} (hn : n ≠ 0) :
    (Nat.log2 n + 1023) * 2 ^ 52 ≤ ofNat n ∧ ofNat n ≤ (Nat.log2 n + 1024) * 2 ^ 52 := by
  have hmantissa := mantissa_bounds hn
  have heq := ofNat_eq hn
  constructor <;> omega

theorem ofNat_mono {m n : Nat} (hle : m ≤ n) : ofNat m ≤ ofNat n := by
  by_cases hm : m = 0
  · rw [hm, ofNat, if_pos rfl]
    exact Nat.zero_le _
  · have hn : n ≠ 0 := by omega
    have hlog : Nat.log2 m ≤ Nat.log2 n := (Nat.le_log2 hn).mpr ((Nat.log2_self_le hm).trans hle)
    rcases hlog.lt_or_eq with hlt | hsame
    · -- The next power of two lies between them.
      have hhigh := (ofNat_bounds hm).2
      have hlow := (ofNat_bounds hn).1
      omega
    · rw [ofNat_eq hm, ofNat_eq hn, mantissa, mantissa, hsame]
      split_ifs
      · exact Nat.add_le_add_left (Nat.mul_le_mul_right _ hle) _
      · exact Nat.add_le_add_left (halfEven_mono _ hle) _

theorem ofNat_pos {n : Nat} (hn : n ≠ 0) : 0 < ofNat n := by
  have hlow := (ofNat_bounds hn).1
  omega

theorem ofNat_lt {n : Nat} (hn : n ≤ 2 ^ 63) : ofNat n < 0x7FF0000000000000 := by
  have hmono := ofNat_mono hn
  have htop : ofNat (2 ^ 63) < 0x7FF0000000000000 := by decide
  omega

/-! ### Integers -/

theorem ofNat_natAbs_lt (v : Int64) : ofNat v.toInt.natAbs < 0x7FF0000000000000 := by
  have hlow := v.le_toInt
  have hhigh := v.toInt_lt
  exact ofNat_lt (by omega)

theorem toNat_ofInt64 (v : Int64) :
    (ofInt64 v).toNat = ofNat v.toInt.natAbs + if v.toInt < 0 then 2 ^ 63 else 0 := by
  have hbound := ofNat_natAbs_lt v
  refine UInt64.toNat_ofNat_of_lt' ?_
  rw [show UInt64.size = 2 ^ 64 from rfl]
  split_ifs <;> omega

theorem isNaN_ofInt64 (v : Int64) : isNaN (ofInt64 v) = false := by
  have hbound := ofNat_natAbs_lt v
  rw [isNaN, decide_eq_false_iff_not, toNat_ofInt64]
  split_ifs <;> omega

/-- The place of a converted integer in the order of doubles. -/
theorem key_ofInt64 (v : Int64) :
    key (ofInt64 v) = if v.toInt < 0 then -(ofNat v.toInt.natAbs : Int) else ofNat v.toInt.natAbs := by
  have hbound := ofNat_natAbs_lt v
  have hvalue := toNat_ofInt64 v
  rw [key]
  split_ifs at hvalue ⊢ <;> omega

theorem key_ofInt64_mono {a b : Int64} (hle : a.toInt ≤ b.toInt) : key (ofInt64 a) ≤ key (ofInt64 b) := by
  rw [key_ofInt64, key_ofInt64]
  split_ifs with ha hb hb
  · have hmono := ofNat_mono (show b.toInt.natAbs ≤ a.toInt.natAbs by omega)
    omega
  · omega
  · omega
  · have hmono := ofNat_mono (show a.toInt.natAbs ≤ b.toInt.natAbs by omega)
    omega

/-- Only equal doubles are at the same place, since no integer is converted to a negative zero. -/
theorem key_ofInt64_inj {a b : Int64} (h : key (ofInt64 a) = key (ofInt64 b)) : ofInt64 a = ofInt64 b := by
  have hpos : ∀ v : Int64, v.toInt < 0 → 0 < ofNat v.toInt.natAbs := fun v hv => ofNat_pos (by omega)
  rw [key_ofInt64, key_ofInt64] at h
  rw [← UInt64.toNat_inj, toNat_ofInt64, toNat_ofInt64]
  split_ifs at h ⊢ with ha hb hb
  · omega
  · have hneg := hpos a ha
    omega
  · have hneg := hpos b hb
    omega
  · omega

end Double

end ToyVdb
