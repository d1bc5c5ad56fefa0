import ToyVdb.Lib.FloatModel

/-!
# The built-in operations compute the values' operations

Sum, product, quotient, square root and comparison of the built-in floats, each as the operation of the values
their bits stand for.
-/

namespace Ieee

open Float.Model (Format UnpackedFloat totalExponent)
open Float.Model.UnpackedFloat

variable {F : Format} {a b : UnpackedFloat} {m n : ℕ} {e e' : ℤ} {s t : Sign}

/-! ### Signs -/

@[simp]
theorem isNeg_mul (s t : Sign) : isNeg (s * t) = (isNeg s != isNeg t) := by
  cases s <;> cases t <;> rfl

@[simp]
theorem isNeg_div (s t : Sign) : isNeg (s / t) = (isNeg s != isNeg t) := by
  cases s <;> cases t <;> rfl

@[simp]
theorem isNeg_neg (s : Sign) : isNeg (-s) = !isNeg s := by
  cases s <;> rfl

theorem beq_eq_isNeg (s t : Sign) : (s == t) = decide (isNeg s = isNeg t) := by
  cases s <;> cases t <;> rfl

theorem signed_eq {mag : Magnitude F} (h : (mag.units : ℝ) = m * ulp F e) (s : Sign) :
    (Value.signed (isNeg s) mag : ℝ) = s.apply m * ulp F e := by
  cases s with
  | negative => simp [Value.signed, isNeg, Sign.apply, h]
  | positive => simp [Value.signed, isNeg, Sign.apply, h]

/-! ### Sums -/

theorem decreaseExponent_units (h : e' ≤ e) :
    ((decreaseExponent m e e').1 : ℝ) * ulp F e' = m * ulp F e := by
  obtain ⟨k, rfl⟩ : ∃ k : ℕ, e = e' + k := ⟨(e - e').toNat, by omega⟩
  have hshift : (e' + k - e').toNat = k := by omega
  simp only [decreaseExponent, hshift, Nat.shiftLeft_eq, ulp_eq]
  rw [show e' + k - F.minExponent = k + (e' - F.minExponent) by ring, zpow_add₀ two_ne_zero, zpow_natCast]
  push_cast
  ring

/-- Two mantissas, aligned and added, against the sum of their magnitudes. -/
theorem aligned_value {x y : Magnitude F} (hx : (x.units : ℝ) = m * ulp F e)
    (hy : (y.units : ℝ) = n * ulp F e') (hxne : x ≠ 0) (s t : Sign) :
    ofUnpacked F (normalize F (s.apply (decreaseExponent m e (min e e')).1 +
        t.apply (decreaseExponent n e' (min e e')).1) (min e e') .positive) =
      Value.add (.fin (isNeg s) x) (.fin (isNeg t) y) := by
  set z := s.apply (decreaseExponent m e (min e e')).1 + t.apply (decreaseExponent n e' (min e e')).1 with hz
  have hunits : ((Value.signed (isNeg s) x + Value.signed (isNeg t) y : ℤ) : ℝ) = z * ulp F (min e e') := by
    have hx' := hx.trans (decreaseExponent_units (min_le_left e e')).symm
    have hy' := hy.trans (decreaseExponent_units (min_le_right e e')).symm
    rw [hz]
    push_cast
    rw [signed_eq hx' s, signed_eq hy' t]
    ring
  have hulp := ulp_pos (F := F) (min e e')
  rw [(normalize_value z _ _).1]
  simp only [Value.add]
  by_cases hzero : z = 0
  · have hsum : Value.signed (isNeg s) x + Value.signed (isNeg t) y = 0 := by
      rw [hzero, Int.cast_zero, zero_mul] at hunits
      exact_mod_cast hunits
    have hsigns : (isNeg s && isNeg t) = false := by
      rw [Ne, Magnitude.eq_zero_iff] at hxne
      cases s <;> cases t <;> simp [isNeg, Value.signed] at hsum ⊢
      omega
    rw [if_pos hzero, if_pos hsum, hsigns]
    rfl
  · have hsum : Value.signed (isNeg s) x + Value.signed (isNeg t) y ≠ 0 := by
      intro hsum
      rw [hsum, Int.cast_zero, zero_eq_mul] at hunits
      exact hzero (by exact_mod_cast hunits.resolve_right hulp.ne')
    have hneg : decide (z < 0) = decide (Value.signed (isNeg s) x + Value.signed (isNeg t) y < 0) := by
      rw [decide_eq_decide, ← Int.cast_lt (R := ℝ), ← Int.cast_lt (R := ℝ), hunits, Int.cast_zero]
      constructor
      · intro hz
        exact mul_neg_of_neg_of_pos hz hulp
      · intro hz
        by_contra hge
        exact hz.not_ge (mul_nonneg (not_lt.mp hge) hulp.le)
    have habs : (z.natAbs : ℝ) * ulp F (min e e') =
        (Value.signed (isNeg s) x + Value.signed (isNeg t) y).natAbs := by
      rw [Nat.cast_natAbs, Nat.cast_natAbs, Int.cast_abs, Int.cast_abs, hunits, abs_mul, abs_of_pos hulp]
    rw [if_neg hzero, if_neg hsum, hneg, habs]

theorem add_value (ha : Regular F a) (hb : Regular F b) :
    ofUnpacked F (UnpackedFloat.add F a b) = (ofUnpacked F a).add (ofUnpacked F b) ∧
      Canonical F (UnpackedFloat.add F a b) := by
  cases a with
  | notANumber => exact ⟨rfl, trivial⟩
  | infinity s =>
      cases b with
      | notANumber => exact ⟨rfl, trivial⟩
      | infinity t =>
          simp only [UnpackedFloat.add, beq_eq_isNeg, ofUnpacked, Value.add]
          by_cases heq : isNeg s = isNeg t <;> simp [heq, Canonical]
      | zero t => exact ⟨rfl, trivial⟩
      | finite t n e' hn =>
          obtain ⟨y, hy, -⟩ := hb.magnitude
          rw [hy]
          exact ⟨rfl, trivial⟩
  | zero s =>
      cases b with
      | notANumber => exact ⟨rfl, trivial⟩
      | infinity t => exact ⟨rfl, trivial⟩
      | zero t =>
          simp only [UnpackedFloat.add, beq_eq_isNeg, ofUnpacked, Value.add]
          cases s <;> cases t <;> simp [isNeg, Canonical]
      | finite t n e' hn =>
          obtain ⟨y, hy, -, hyne⟩ := hb.magnitude
          simp only [UnpackedFloat.add]
          rw [hy, Value.add_comm]
          exact ⟨(Value.add_fin_zero hyne _ _).symm, hb.canonical⟩
  | finite s m e hm =>
      obtain ⟨x, hx, hxunits, hxne⟩ := ha.magnitude
      cases b with
      | notANumber =>
          rw [hx]
          exact ⟨rfl, trivial⟩
      | infinity t =>
          rw [hx]
          exact ⟨rfl, trivial⟩
      | zero t =>
          simp only [UnpackedFloat.add]
          rw [hx]
          exact ⟨(Value.add_fin_zero hxne _ _).symm, ha.canonical⟩
      | finite t n e' hn =>
          obtain ⟨y, hy, hyunits, -⟩ := hb.magnitude
          rw [hx, hy]
          exact ⟨aligned_value hxunits hyunits hxne s t, (normalize_value _ _ _).2⟩

/-! ### Differences -/

theorem neg_value (ha : Regular F a) :
    ofUnpacked F a.neg = (ofUnpacked F a).neg ∧ Regular F a.neg := by
  cases a with
  | notANumber => exact ⟨rfl, trivial⟩
  | infinity s => exact ⟨by simp [UnpackedFloat.neg, ofUnpacked, Value.neg], trivial⟩
  | zero s => exact ⟨by simp [UnpackedFloat.neg, ofUnpacked, Value.neg], trivial⟩
  | finite s m e hm =>
      obtain ⟨x, hx, hunits, -⟩ := ha.magnitude
      refine ⟨?_, ha⟩
      rw [hx]
      simp [UnpackedFloat.neg, ofUnpacked, Value.neg, ← hunits]

theorem sub_eq_add_neg (a b : UnpackedFloat) :
    UnpackedFloat.sub F a b = UnpackedFloat.add F a b.neg := by
  cases a <;> cases b <;> try rfl
  rename_i s m e hm t n e' hn
  simp only [UnpackedFloat.sub, UnpackedFloat.add, UnpackedFloat.neg]
  congr 1
  cases t <;> simp only [Sign.apply] <;> ring

theorem sub_value (ha : Regular F a) (hb : Regular F b) :
    ofUnpacked F (UnpackedFloat.sub F a b) = (ofUnpacked F a).sub (ofUnpacked F b) ∧
      Canonical F (UnpackedFloat.sub F a b) := by
  obtain ⟨hneg, hregular⟩ := neg_value hb
  rw [sub_eq_add_neg, Value.sub, ← hneg]
  exact add_value ha hregular

/-! ### Products -/

theorem ulp_zero (F : Format) : ulp F 0 = one F := by
  have hp := two_le_mantissaBits F
  have hpow := Nat.two_pow_pos (F.exponentBits - 1)
  have hexp : (0 : ℤ) - F.minExponent = (2 ^ (F.exponentBits - 1) + F.mantissaBits - 3 : ℕ) := by
    simp only [Format.minExponent]
    push_cast [Nat.cast_sub (show 3 ≤ 2 ^ (F.exponentBits - 1) + F.mantissaBits by omega)]
    ring
  rw [ulp_eq, hexp, zpow_natCast, one]
  push_cast
  rfl

theorem ulp_add (e e' : ℤ) :
    ulp F (e + e') = ulp F e * ulp F e' / one F := by
  rw [← ulp_zero, ulp_eq, ulp_eq, ulp_eq, ulp_eq, ← zpow_add₀ two_ne_zero, ← zpow_sub₀ two_ne_zero]
  congr 1
  ring

theorem mul_value (ha : Regular F a) (hb : Regular F b) :
    ofUnpacked F (UnpackedFloat.mul F a b) = (ofUnpacked F a).mul (ofUnpacked F b) ∧
      Canonical F (UnpackedFloat.mul F a b) := by
  cases a with
  | notANumber => exact ⟨rfl, trivial⟩
  | infinity s =>
      cases b with
      | notANumber => exact ⟨rfl, trivial⟩
      | infinity t => simp [UnpackedFloat.mul, ofUnpacked, Value.mul, Canonical]
      | zero t => simp [UnpackedFloat.mul, ofUnpacked, Value.mul, Canonical]
      | finite t n e' hn =>
          obtain ⟨y, hy, -, hyne⟩ := hb.magnitude
          rw [hy]
          simp [UnpackedFloat.mul, ofUnpacked, Value.mul, Canonical, hyne]
  | zero s =>
      cases b with
      | notANumber => exact ⟨rfl, trivial⟩
      | infinity t => simp [UnpackedFloat.mul, ofUnpacked, Value.mul, Canonical]
      | zero t => simp [UnpackedFloat.mul, ofUnpacked, Value.mul, Canonical]
      | finite t n e' hn =>
          obtain ⟨y, hy, -, -⟩ := hb.magnitude
          rw [hy]
          simp [UnpackedFloat.mul, ofUnpacked, Value.mul, Canonical]
  | finite s m e hm =>
      obtain ⟨x, hx, hxunits, hxne⟩ := ha.magnitude
      cases b with
      | notANumber =>
          rw [hx]
          exact ⟨rfl, trivial⟩
      | infinity t =>
          rw [hx]
          simp [UnpackedFloat.mul, ofUnpacked, Value.mul, Canonical, hxne]
      | zero t =>
          rw [hx]
          simp [UnpackedFloat.mul, ofUnpacked, Value.mul, Canonical]
      | finite t n e' hn =>
          obtain ⟨y, hy, hyunits, -⟩ := hb.magnitude
          obtain ⟨hmin, -, hlow⟩ := ha.canonical.bounds
          obtain ⟨hmin', -, hlow'⟩ := hb.canonical.bounds
          -- the product is long enough to be rounded as it stands
          have hlog : m.log2 + n.log2 ≤ (m * n).log2 := by
            rw [Nat.le_log2 (Nat.mul_pos hm hn).ne', pow_add]
            exact Nat.mul_le_mul (Nat.log2_self_le hm.ne') (Nat.log2_self_le hn.ne')
          have hle : e + e' ≤ F.targetExponent (totalExponent (m * n) (e + e')) := by
            rw [← Nat.le_log2 hm.ne'] at hlow
            rw [← Nat.le_log2 hn.ne'] at hlow'
            simp only [Format.targetExponent, totalExponent]
            have hnonpos : F.minExponent ≤ 0 := minExponent_nonpos F
            omega
          obtain ⟨hvalue, hcanon⟩ := roundWithAccuracy_value
            (show Describes (m * n) ((m * n : ℕ) : ℝ) .exact from rfl) hle (s * t)
          refine ⟨?_, hcanon⟩
          rw [hx, hy]
          refine hvalue.trans ?_
          simp only [Value.mul, isNeg_mul]
          rw [ulp_add, hxunits, hyunits]
          congr 1
          push_cast
          ring

/-! ### Quotients -/

theorem describes_fraction (m : ℕ) (hn : 0 < n) :
    Describes (m / n) ((m : ℝ) / n) (accuracyOfFraction (m % n) n) := by
  have hpos : (0 : ℝ) < n := by exact_mod_cast hn
  have hdiv : (m : ℝ) = n * (m / n : ℕ) + (m % n : ℕ) := by exact_mod_cast (Nat.div_add_mod m n).symm
  have hmod : ((m % n : ℕ) : ℝ) < n := by exact_mod_cast Nat.mod_lt m hn
  have hquot : (m : ℝ) / n = (m / n : ℕ) + (m % n : ℕ) / n := by
    rw [div_eq_iff hpos.ne', add_mul, div_mul_cancel₀ _ hpos.ne']
    linarith
  unfold accuracyOfFraction
  split_ifs with hzero
  · rw [Describes, hquot, hzero]
    simp
  · have hrem : (0 : ℝ) < (m % n : ℕ) := by exact_mod_cast Nat.pos_of_ne_zero hzero
    have hone : ((m % n : ℕ) : ℝ) / n < 1 := (div_lt_one hpos).mpr hmod
    have hfrac : (0 : ℝ) < (m % n : ℕ) / n := div_pos hrem hpos
    rw [hquot]
    obtain hlt | heq | hgt := lt_trichotomy (2 * (m % n)) n
    · have hhalf : ((m % n : ℕ) : ℝ) / n < 1 / 2 := by
        rw [div_lt_div_iff₀ hpos two_pos, one_mul, mul_comm]
        exact_mod_cast hlt
      rw [Nat.compare_eq_lt.mpr hlt]
      exact ⟨by linarith, by linarith⟩
    · have hhalf : ((m % n : ℕ) : ℝ) / n = 1 / 2 := by
        rw [div_eq_div_iff hpos.ne' two_ne_zero, one_mul, mul_comm]
        exact_mod_cast heq
      rw [Nat.compare_eq_eq.mpr heq, Describes]
      linarith
    · have hhalf : 1 / 2 < ((m % n : ℕ) : ℝ) / n := by
        rw [div_lt_div_iff₀ two_pos hpos, one_mul, mul_comm]
        exact_mod_cast hgt
      rw [Nat.compare_eq_gt.mpr hgt]
      exact ⟨by linarith, by linarith⟩

/-- A mantissa that reaches to the format's exponent for a number of some size is long enough for it. -/
theorem le_targetExponent {d : ℤ} (hle : e ≤ F.targetExponent d)
    (hlog : ∀ j : ℕ, (j : ℤ) = d - 1 - e → 2 ^ j ≤ m) :
    e ≤ F.targetExponent (totalExponent m e) := by
  have hp := two_le_mantissaBits F
  rcases le_max_iff.mp hle with hd | hmin
  · obtain ⟨j, hj⟩ : ∃ j : ℕ, (j : ℤ) = d - 1 - e := ⟨(d - 1 - e).toNat, by omega⟩
    have hm : m ≠ 0 := fun hzero => (Nat.two_pow_pos j).not_ge ((hlog j hj).trans hzero.le)
    have hbits := (Nat.le_log2 hm).mpr (hlog j hj)
    refine le_trans ?_ (le_max_left _ _)
    simp only [totalExponent]
    omega
  · exact hmin.trans (minExponent_le_targetExponent _)

theorem div_value (ha : Regular F a) (hb : Regular F b) :
    ofUnpacked F (UnpackedFloat.div F a b) = (ofUnpacked F a).div (ofUnpacked F b) ∧
      Canonical F (UnpackedFloat.div F a b) := by
  cases a with
  | notANumber => exact ⟨rfl, trivial⟩
  | infinity s =>
      cases b with
      | notANumber => exact ⟨rfl, trivial⟩
      | infinity t => exact ⟨rfl, trivial⟩
      | zero t => simp [UnpackedFloat.div, ofUnpacked, Value.div, Canonical]
      | finite t n e' hn =>
          obtain ⟨y, hy, -, -⟩ := hb.magnitude
          rw [hy]
          simp [UnpackedFloat.div, ofUnpacked, Value.div, Canonical]
  | zero s =>
      cases b with
      | notANumber => exact ⟨rfl, trivial⟩
      | infinity t => simp [UnpackedFloat.div, ofUnpacked, Value.div, Canonical]
      | zero t => simp [UnpackedFloat.div, ofUnpacked, Value.div, Canonical]
      | finite t n e' hn =>
          obtain ⟨y, hy, -, hyne⟩ := hb.magnitude
          rw [hy]
          simp [UnpackedFloat.div, ofUnpacked, Value.div, Canonical, hyne]
  | finite s m e hm =>
      obtain ⟨x, hx, hxunits, hxne⟩ := ha.magnitude
      cases b with
      | notANumber =>
          rw [hx]
          exact ⟨rfl, trivial⟩
      | infinity t =>
          rw [hx]
          simp [UnpackedFloat.div, ofUnpacked, Value.div, Canonical]
      | zero t =>
          rw [hx]
          simp [UnpackedFloat.div, ofUnpacked, Value.div, Canonical, hxne]
      | finite t n e' hn =>
          obtain ⟨y, hy, hyunits, hyne⟩ := hb.magnitude
          set d := totalExponent m e - totalExponent n e' with hd
          set t' := min (e - e') (F.targetExponent d) with ht'
          obtain ⟨k, hk⟩ : ∃ k : ℕ, e - e' - t' = k := ⟨(e - e' - t').toNat, by omega⟩
          have hle : t' ≤ F.targetExponent (totalExponent (m * 2 ^ k / n) t') := by
            refine le_targetExponent (min_le_right _ _) fun j hj => ?_
            have hbits : n.log2 + 1 + j = m.log2 + k := by
              simp only [totalExponent] at hd
              omega
            rw [Nat.le_div_iff_mul_le hn]
            calc 2 ^ j * n ≤ 2 ^ j * 2 ^ (n.log2 + 1) := Nat.mul_le_mul_left _ Nat.lt_log2_self.le
              _ = 2 ^ m.log2 * 2 ^ k := by rw [← pow_add, ← pow_add, add_comm, hbits]
              _ ≤ m * 2 ^ k := Nat.mul_le_mul_right _ (Nat.log2_self_le hm.ne')
          obtain ⟨hvalue, hcanon⟩ := roundWithAccuracy_value (describes_fraction (m * 2 ^ k) hn) hle (s / t)
          have hdiv : UnpackedFloat.div F (.finite s m e hm) (.finite t n e' hn) =
              roundWithAccuracy F (s / t) (m * 2 ^ k / n) t' (accuracyOfFraction (m * 2 ^ k % n) n) := by
            have hshift : (e - e' - t').toNat = k := by omega
            simp only [UnpackedFloat.div, divCore, ← hd, ← ht', hshift, Nat.shiftLeft_eq]
          rw [hdiv, hx, hy]
          refine ⟨hvalue.trans ?_, hcanon⟩
          simp only [Value.div, if_neg hyne, isNeg_div]
          congr 1
          have hn' : (n : ℝ) ≠ 0 := by exact_mod_cast hn.ne'
          have hulp : ulp F e * one F / ulp F e' = 2 ^ k * ulp F t' := by
            rw [← ulp_zero, ulp_eq, ulp_eq, ulp_eq, ulp_eq, ← zpow_add₀ two_ne_zero, ← zpow_sub₀ two_ne_zero,
              ← zpow_natCast, ← zpow_add₀ two_ne_zero]
            congr 1
            omega
          rw [hxunits, hyunits]
          calc ((m * 2 ^ k : ℕ) : ℝ) / n * ulp F t' = m / n * (2 ^ k * ulp F t') := by push_cast; ring
            _ = m / n * (ulp F e * one F / ulp F e') := by rw [hulp]
            _ = m * ulp F e * one F / (n * ulp F e') := by ring

/-! ### Square roots -/

theorem describes_sqrt (m : ℕ) :
    Describes (Nat.sqrt m) √m (if m - Nat.sqrt m * Nat.sqrt m = 0 then .exact
      else .inexact (if m - Nat.sqrt m * Nat.sqrt m ≤ Nat.sqrt m then .lt else .gt)) := by
  obtain ⟨k, hk⟩ : ∃ k, m = Nat.sqrt m * Nat.sqrt m + k := ⟨_, (Nat.add_sub_of_le (Nat.sqrt_le m)).symm⟩
  have hhigh : m < (Nat.sqrt m + 1) * (Nat.sqrt m + 1) := Nat.lt_succ_sqrt m
  generalize Nat.sqrt m = r at *
  have hr : (0 : ℝ) ≤ r := Nat.cast_nonneg r
  have hm : (m : ℝ) = r * r + k := by exact_mod_cast hk
  rw [show m - r * r = k by omega, hm]
  split_ifs with hzero hlow
  · rw [hzero, Nat.cast_zero, add_zero]
    exact Real.sqrt_mul_self hr
  · have hlow' : (k : ℝ) ≤ r := by exact_mod_cast hlow
    have hpos : (0 : ℝ) < k := by exact_mod_cast Nat.pos_of_ne_zero hzero
    have hhalf : √(r * r + k : ℝ) < r + 1 / 2 := by
      rw [Real.sqrt_lt' (by linarith)]
      nlinarith
    constructor
    · rw [Real.lt_sqrt hr]
      nlinarith
    · linarith
  · have hlow' : (r : ℝ) + 1 ≤ k := by exact_mod_cast not_le.mp hlow
    have hhigh' : (r * r + k : ℝ) < (r + 1) * (r + 1) := by exact_mod_cast hk ▸ hhigh
    have hhalf : (r : ℝ) + 1 / 2 < √(r * r + k) := by
      rw [Real.lt_sqrt (by linarith)]
      nlinarith
    constructor
    · linarith
    · rw [Real.sqrt_lt' (by linarith)]
      nlinarith

theorem sqrt_value (ha : Regular F a) :
    ofUnpacked F (UnpackedFloat.sqrt F a) = (ofUnpacked F a).sqrt ∧
      Canonical F (UnpackedFloat.sqrt F a) := by
  cases a with
  | notANumber => exact ⟨rfl, trivial⟩
  | infinity s => cases s <;> exact ⟨rfl, trivial⟩
  | zero s => simp [UnpackedFloat.sqrt, ofUnpacked, Value.sqrt, Canonical]
  | finite s m e hm =>
      obtain ⟨x, hx, hunits, hne⟩ := ha.magnitude
      rw [hx]
      cases s with
      | negative => simp [UnpackedFloat.sqrt, ofUnpacked, Value.sqrt, Canonical, hne, isNeg]
      | positive =>
          set d := (totalExponent m e + 1).ediv 2 with hd
          set t := min (e.ediv 2) (F.targetExponent d) with ht
          have hd' : d = (totalExponent m e + 1) / 2 := hd
          have he' : e.ediv 2 = e / 2 := rfl
          obtain ⟨k, hk⟩ : ∃ k : ℕ, e - 2 * t = k := ⟨(e - 2 * t).toNat, by omega⟩
          have hle : t ≤ F.targetExponent (totalExponent (Nat.sqrt (m * 2 ^ k)) t) := by
            refine le_targetExponent (min_le_right _ _) fun j hj => ?_
            rw [Nat.le_sqrt, ← pow_add]
            calc 2 ^ (j + j) ≤ 2 ^ (m.log2 + k) := by
                  refine Nat.pow_le_pow_right two_pos ?_
                  simp only [totalExponent] at hd'
                  omega
              _ = 2 ^ m.log2 * 2 ^ k := pow_add _ _ _
              _ ≤ m * 2 ^ k := Nat.mul_le_mul_right _ (Nat.log2_self_le hm.ne')
          obtain ⟨hvalue, hcanon⟩ := roundWithAccuracy_value (describes_sqrt (m * 2 ^ k)) hle .positive
          have hshift : (e - 2 * t).toNat = k := by omega
          have hsqrt : UnpackedFloat.sqrt F (.finite .positive m e hm) =
              roundWithAccuracy F .positive (Nat.sqrt (m * 2 ^ k)) t
                (if m * 2 ^ k - Nat.sqrt (m * 2 ^ k) * Nat.sqrt (m * 2 ^ k) = 0 then .exact
                  else .inexact (if m * 2 ^ k - Nat.sqrt (m * 2 ^ k) * Nat.sqrt (m * 2 ^ k) ≤ Nat.sqrt (m * 2 ^ k)
                    then .lt else .gt)) := by
            simp only [UnpackedFloat.sqrt, sqrtCore, ← hd, ← ht, hshift, Nat.shiftLeft_eq]
          rw [hsqrt]
          refine ⟨hvalue.trans ?_, hcanon⟩
          simp only [Value.sqrt, if_neg hne, isNeg, Bool.false_eq_true, if_false]
          congr 1
          have hulp : ulp F e * one F = 2 ^ k * (ulp F t * ulp F t) := by
            rw [← ulp_zero, ulp_eq, ulp_eq, ulp_eq, ← zpow_add₀ two_ne_zero, ← zpow_add₀ two_ne_zero, ← zpow_natCast,
              ← zpow_add₀ two_ne_zero]
            congr 1
            omega
          have hpos := (ulp_pos (F := F) t).le
          rw [hunits, mul_assoc, hulp]
          calc √((m * 2 ^ k : ℕ) : ℝ) * ulp F t = √(m * 2 ^ k) * √(ulp F t * ulp F t) := by
                rw [Real.sqrt_mul_self hpos]
                push_cast
                rfl
            _ = √(m * 2 ^ k * (ulp F t * ulp F t)) := (Real.sqrt_mul (by positivity) _).symm
            _ = √(m * (2 ^ k * (ulp F t * ulp F t))) := by rw [mul_assoc]

/-! ### Comparisons -/

/-- Canonical mantissas compare by exponent first. -/
theorem compare_magnitudes {hm : 0 < m} {hn : 0 < n} {x y : Magnitude F}
    (ha : Canonical F (.finite s m e hm)) (hb : Canonical F (.finite t n e' hn))
    (hx : (x.units : ℝ) = m * ulp F e) (hy : (y.units : ℝ) = n * ulp F e') :
    (compare e e').then (compare m n) = compare x.units y.units := by
  have hlt : ∀ {m n : ℕ} {e e' : ℤ} {s t : Sign} {hm : 0 < m} {hn : 0 < n}, Canonical F (.finite s m e hm) →
      Canonical F (.finite t n e' hn) → e < e' → m * ulp F e < n * ulp F e' := by
    intro m n e e' s t hm hn ha hb hlt
    obtain ⟨hmin, hhigh, -⟩ := ha.bounds
    obtain ⟨-, -, hlow⟩ := hb.bounds
    have hn' := hlow.resolve_left (by omega)
    obtain ⟨k, rfl⟩ : ∃ k : ℕ, e' = e + 1 + k := ⟨(e' - e - 1).toNat, by omega⟩
    have hp := two_le_mantissaBits F
    have hulp : ulp F (e + 1 + k) = 2 ^ (k + 1) * ulp F e := by
      rw [ulp_eq, ulp_eq, ← zpow_natCast, ← zpow_add₀ two_ne_zero]
      congr 1
      push_cast
      ring
    rw [hulp, ← mul_assoc]
    apply mul_lt_mul_of_pos_right _ (ulp_pos e)
    have hnat : m < n * 2 ^ (k + 1) := by
      calc m < 2 ^ F.mantissaBits := hhigh
        _ = 2 ^ (F.mantissaBits - 1) * 2 ^ 1 := by
            rw [← pow_add, Nat.sub_add_cancel (by omega)]
        _ ≤ n * 2 ^ (k + 1) := Nat.mul_le_mul hn' (Nat.pow_le_pow_right two_pos (by omega))
    exact_mod_cast hnat
  obtain hcmp | rfl | hcmp := lt_trichotomy e e'
  · have hunits := hlt ha hb hcmp
    rw [← hx, ← hy, Nat.cast_lt] at hunits
    rw [Int.compare_eq_lt.mpr hcmp, Nat.compare_eq_lt.mpr hunits]
    rfl
  · have hulp := ulp_pos (F := F) e
    rw [Int.compare_eq_eq.mpr rfl]
    change compare m n = _
    obtain hlt | rfl | hgt := lt_trichotomy m n
    · have hunits : x.units < y.units := by
        rw [← Nat.cast_lt (α := ℝ), hx, hy]
        exact mul_lt_mul_of_pos_right (by exact_mod_cast hlt) hulp
      rw [Nat.compare_eq_lt.mpr hlt, Nat.compare_eq_lt.mpr hunits]
    · have hunits : x.units = y.units := by
        rw [← Nat.cast_inj (R := ℝ), hx, hy]
      rw [hunits, Nat.compare_eq_eq.mpr rfl, Nat.compare_eq_eq.mpr rfl]
    · have hunits : y.units < x.units := by
        rw [← Nat.cast_lt (α := ℝ), hx, hy]
        exact mul_lt_mul_of_pos_right (by exact_mod_cast hgt) hulp
      rw [Nat.compare_eq_gt.mpr hgt, Nat.compare_eq_gt.mpr hunits]
  · have hunits := hlt hb ha hcmp
    rw [← hx, ← hy, Nat.cast_lt] at hunits
    rw [Int.compare_eq_gt.mpr hcmp, Nat.compare_eq_gt.mpr hunits]
    rfl

theorem compare_of {x y : ℤ} : (o : Ordering) →
    (match o with | .lt => x < y | .eq => x = y | .gt => y < x) → compare x y = o
  | .lt, h => Int.compare_eq_lt.mpr h
  | .eq, h => Int.compare_eq_eq.mpr h
  | .gt, h => Int.compare_eq_gt.mpr h

theorem compare_finite {hm : 0 < m} {hn : 0 < n} (ha : Regular F (.finite s m e hm))
    (hb : Regular F (.finite t n e' hn)) :
    (UnpackedFloat.finite s m e hm).compare (.finite t n e' hn) =
      some (compare (ofUnpacked F (.finite s m e hm)).key (ofUnpacked F (.finite t n e' hn)).key) := by
  obtain ⟨x, hx, hxunits, hxne⟩ := ha.magnitude
  obtain ⟨y, hy, hyunits, hyne⟩ := hb.magnitude
  have hcompare := compare_magnitudes ha.canonical hb.canonical hxunits hyunits
  rw [Ne, Magnitude.eq_zero_iff] at hxne hyne
  rw [hx, hy]
  cases s <;> cases t <;>
    simp only [UnpackedFloat.compare, Value.key, Value.signed, isNeg, if_true, Bool.false_eq_true, if_false,
      Option.some.injEq]
  · rw [hcompare]
    obtain hlt | heq | hgt := lt_trichotomy x.units y.units
    · rw [Nat.compare_eq_lt.mpr hlt]
      exact (compare_of .gt (by omega)).symm
    · rw [Nat.compare_eq_eq.mpr heq]
      exact (compare_of .eq (by omega)).symm
    · rw [Nat.compare_eq_gt.mpr hgt]
      exact (compare_of .lt (by omega)).symm
  · exact (compare_of .lt (by omega)).symm
  · exact (compare_of .gt (by omega)).symm
  · rw [hcompare]
    obtain hlt | heq | hgt := lt_trichotomy x.units y.units
    · rw [Nat.compare_eq_lt.mpr hlt]
      exact (compare_of .lt (by omega)).symm
    · rw [Nat.compare_eq_eq.mpr heq]
      exact (compare_of .eq (by omega)).symm
    · rw [Nat.compare_eq_gt.mpr hgt]
      exact (compare_of .gt (by omega)).symm

/-- The built-in comparison is that of the places in the order. -/
theorem compare_value (ha : Regular F a) (hb : Regular F b) (hane : ofUnpacked F a ≠ .nan)
    (hbne : ofUnpacked F b ≠ .nan) :
    a.compare b = some (compare (ofUnpacked F a).key (ofUnpacked F b).key) := by
  have htop := top_pos F
  cases a with
  | notANumber => exact absurd rfl hane
  | infinity s =>
      cases b with
      | notANumber => exact absurd rfl hbne
      | infinity t =>
          cases s <;> cases t
          · exact congrArg some (compare_of .eq rfl).symm
          · exact congrArg some (compare_of .lt (by simp [ofUnpacked, Value.key, isNeg]; omega)).symm
          · exact congrArg some (compare_of .gt (by simp [ofUnpacked, Value.key, isNeg]; omega)).symm
          · exact congrArg some (compare_of .eq rfl).symm
      | zero t =>
          cases s <;> exact congrArg some (compare_of _ (by simp [ofUnpacked, Value.key, isNeg, htop])).symm
      | finite t n e' hn =>
          obtain ⟨y, hy, -, -⟩ := hb.magnitude
          have hlt := y.lt_top
          rw [hy]
          cases s <;> cases t <;>
            exact congrArg some
              (compare_of _ (by simp [ofUnpacked, Value.key, Value.signed, isNeg]; omega)).symm
  | zero s =>
      cases b with
      | notANumber => exact absurd rfl hbne
      | infinity t =>
          cases t <;> exact congrArg some (compare_of _ (by simp [ofUnpacked, Value.key, isNeg, htop])).symm
      | zero t => exact congrArg some (compare_of _ (by simp [ofUnpacked, Value.key])).symm
      | finite t n e' hn =>
          obtain ⟨y, hy, -, hyne⟩ := hb.magnitude
          rw [Ne, Magnitude.eq_zero_iff] at hyne
          rw [hy]
          cases t <;>
            exact congrArg some
              (compare_of _ (by simp [ofUnpacked, Value.key, Value.signed, isNeg]; omega)).symm
  | finite s m e hm =>
      cases b with
      | notANumber => exact absurd rfl hbne
      | infinity t =>
          obtain ⟨x, hx, -, -⟩ := ha.magnitude
          have hlt := x.lt_top
          rw [hx]
          cases s <;> cases t <;>
            exact congrArg some
              (compare_of _ (by simp [ofUnpacked, Value.key, Value.signed, isNeg]; omega)).symm
      | zero t =>
          obtain ⟨x, hx, -, hxne⟩ := ha.magnitude
          rw [Ne, Magnitude.eq_zero_iff] at hxne
          rw [hx]
          cases s <;>
            exact congrArg some
              (compare_of _ (by simp [ofUnpacked, Value.key, Value.signed, isNeg]; omega)).symm
      | finite t n e' hn => exact compare_finite ha hb

/-! ### Equality -/

theorem isNeg_inj (h : isNeg s = isNeg t) : s = t := by
  cases s <;> cases t <;> first | rfl | cases h

theorem ofUnpacked_inj (ha : Regular F a) (hb : Regular F b) (h : ofUnpacked F a = ofUnpacked F b) :
    a = b := by
  cases a with
  | finite s m e hm =>
      obtain ⟨x, hx, hxunits, hxne⟩ := ha.magnitude
      rw [hx] at h
      cases b with
      | finite t n e' hn =>
          obtain ⟨y, hy, hyunits, hyne⟩ := hb.magnitude
          rw [hy] at h
          injection h with hs hmag
          have hcompare := compare_magnitudes ha.canonical hb.canonical hxunits hyunits
          rw [hmag, Nat.compare_eq_eq.mpr rfl, Ordering.then_eq_eq, Int.compare_eq_eq, Nat.compare_eq_eq]
            at hcompare
          obtain ⟨rfl, rfl⟩ := hcompare
          rw [isNeg_inj hs]
      | zero t =>
          injection h with hs hmag
          exact absurd hmag hxne
      | infinity t => cases h
      | notANumber => cases h
  | zero s =>
      cases b with
      | finite t n e' hn =>
          obtain ⟨y, hy, -, hyne⟩ := hb.magnitude
          rw [hy] at h
          injection h with hs hmag
          exact absurd hmag.symm hyne
      | zero t =>
          injection h with hs
          rw [isNeg_inj hs]
      | infinity t => cases h
      | notANumber => cases h
  | infinity s =>
      cases b with
      | finite t n e' hn =>
          obtain ⟨y, hy, -, -⟩ := hb.magnitude
          rw [hy] at h
          cases h
      | zero t => cases h
      | infinity t =>
          injection h with hs
          rw [isNeg_inj hs]
      | notANumber => cases h
  | notANumber =>
      cases b with
      | finite t n e' hn =>
          obtain ⟨y, hy, -, -⟩ := hb.magnitude
          rw [hy] at h
          cases h
      | zero t => cases h
      | infinity t => cases h
      | notANumber => rfl

end Ieee
