import ToyVdb.Lib.Ieee

/-!
# The built-in floats as values

The language's floats are bit patterns, computed with by shifting mantissas and keeping a round bit and a sticky
bit. Each operation computes the value that the exact result is rounded to, so what is proved of values holds of
the built-in operations.
-/

namespace Ieee

open Float.Model (Format UnpackedFloat totalExponent)
open Float.Model.UnpackedFloat

/-! ### Mantissas with residual bits -/

/-- How an accuracy says that a mantissa stands to the number it is cut off from. -/
def Describes (m : ℕ) (x : ℝ) : Accuracy → Prop
  | .exact => x = m
  | .inexact .lt => m < x ∧ x - m < m + 1 - x
  | .inexact .eq => x - m = m + 1 - x
  | .inexact .gt => m + 1 - x < x - m ∧ x < m + 1

variable {m : ℕ} {x : ℝ} {acc : Accuracy}

theorem Describes.floor (h : Describes m x acc) : ⌊x⌋₊ = m := by
  have hm : (0 : ℝ) ≤ m := Nat.cast_nonneg m
  rw [Nat.floor_eq_iff]
  · cases acc with
    | exact => exact ⟨h.ge, by rw [show x = m from h]; linarith⟩
    | inexact o =>
        cases o with
        | lt => exact ⟨h.1.le, by linarith [h.2]⟩
        | eq =>
            have heq : x - m = m + 1 - x := h
            exact ⟨by linarith, by linarith⟩
        | gt => exact ⟨by linarith [h.1], h.2⟩
  · cases acc with
    | exact => exact hm.trans h.ge
    | inexact o =>
        cases o with
        | lt => exact hm.trans h.1.le
        | eq => linarith [show x - m = m + 1 - x from h]
        | gt => linarith [h.1]

theorem Describes.nonneg (h : Describes m x acc) : 0 ≤ x := by
  by_contra hneg
  have hfloor := h.floor
  have hm : (0 : ℝ) ≤ m := Nat.cast_nonneg m
  cases acc with
  | exact => exact hneg (hm.trans h.ge)
  | inexact o =>
      cases o with
      | lt => exact hneg (hm.trans h.1.le)
      | eq => exact hneg (by linarith [show x - m = m + 1 - x from h])
      | gt => exact hneg (by linarith [h.1])

theorem Describes.rounded (h : Describes m x acc) : acc.roundToNearestEven m = Rounding.nearest x := by
  rw [Rounding.nearest, h.floor]
  cases acc with
  | exact =>
      rw [if_pos (by rw [show x = m from h]; linarith)]
      rfl
  | inexact o =>
      cases o with
      | lt =>
          rw [if_pos (by linarith [h.2])]
          rfl
      | eq =>
          have heq : x = m + 1 / 2 := by linarith [show x - m = m + 1 - x from h]
          rw [if_neg heq.not_lt, if_pos heq]
          rfl
      | gt =>
          have hgt : m + 1 / 2 < x := by linarith [h.1]
          rw [if_neg hgt.not_gt, if_neg hgt.ne']
          rfl

/-- How an extended mantissa stands to a number. -/
def DescribedBy (x : ℝ) (em : ExtendedMantissa) : Prop := Describes em.mantissa x em.accuracy

theorem describedBy_ofMantissaAndAccuracy :
    DescribedBy x (ExtendedMantissa.ofMantissaAndAccuracy m acc) ↔ Describes m x acc := by
  cases acc with
  | exact => rfl
  | inexact o => cases o <;> rfl

theorem DescribedBy.shiftRightOne {em : ExtendedMantissa} (h : DescribedBy x em) :
    DescribedBy (x / 2) em.shiftRightOne := by
  obtain ⟨m, roundBit, stickyBit⟩ := em
  have hhalf : (m : ℝ) = 2 * (m / 2 : ℕ) + (m % 2 : ℕ) := by exact_mod_cast (Nat.div_add_mod m 2).symm
  obtain hpar | hpar := Nat.mod_two_eq_zero_or_one m
  all_goals
    rw [hpar] at hhalf
    push_cast at hhalf
    cases roundBit <;> cases stickyBit
  all_goals
    simp only [DescribedBy, ExtendedMantissa.accuracy, ExtendedMantissa.shiftRightOne, Describes, hpar,
      Bool.or_self, Bool.or_true, Bool.or_false, bne_self_eq_false, Nat.reduceBNe] at h ⊢
    first | linarith | exact ⟨by linarith, by linarith⟩

theorem DescribedBy.shiftRight {em : ExtendedMantissa} (h : DescribedBy x em) (n : ℕ) :
    DescribedBy (x / 2 ^ n) (em >>> n) := by
  change DescribedBy _ (n.repeat ExtendedMantissa.shiftRightOne em)
  induction n with
  | zero => simpa [Nat.repeat] using h
  | succ n ih =>
      rw [Nat.repeat, pow_succ, ← div_div]
      exact ih.shiftRightOne

/-! ### Rounding a mantissa -/

variable (F : Format)

/-- The units of one in the last place of a mantissa, when it is not too small for the format. -/
noncomputable def ulp (e : ℤ) : ℝ := (2 : ℕ) ^ (e - F.minExponent)

def isNeg : Sign → Bool
  | .negative => true
  | .positive => false

/-- What an unpacked float stands for. -/
noncomputable def ofUnpacked : UnpackedFloat → Value F
  | .notANumber => .nan
  | .infinity s => .inf (isNeg s)
  | .zero s => .fin (isNeg s) 0
  | .finite s m e _ => .rounded F (isNeg s) (m * ulp F e)

/-- The exponent is the one the format has for the mantissa. -/
def Canonical : UnpackedFloat → Prop
  | .finite _ m e _ => e = F.targetExponent (totalExponent m e)
  | _ => True

variable {F} {e : ℤ}

theorem ulp_eq (e : ℤ) : ulp F e = 2 ^ (e - F.minExponent) := rfl

theorem ulp_pos (e : ℤ) : 0 < ulp F e := by
  rw [ulp_eq]
  positivity

theorem minExponent_le_targetExponent (t : ℤ) : F.minExponent ≤ F.targetExponent t := le_max_right _ _

theorem targetExponent_le_iff {t e : ℤ} :
    F.targetExponent t ≤ e ↔ t - F.mantissaBits ≤ e ∧ F.minExponent ≤ e := max_le_iff

theorem minExponent_nonpos (F : Format) : F.minExponent ≤ 0 := by
  have hp := two_le_mantissaBits F
  have hpow := Nat.one_le_two_pow (n := F.exponentBits - 1)
  simp only [Format.minExponent]
  have hcast : (1 : ℤ) ≤ 2 ^ (F.exponentBits - 1) := by exact_mod_cast hpow
  omega

/-- The bits that rounding drops are those the shift to the format's exponent drops. -/
theorem Describes.spare (h : Describes m x acc) (he : e ≤ F.targetExponent (totalExponent m e)) :
    (Rounding.spare F.mantissaBits ⌊x * ulp F e⌋₊ : ℤ) =
      F.targetExponent (totalExponent m e) - F.minExponent := by
  have hp := two_le_mantissaBits F
  have hmin := minExponent_le_targetExponent (F := F) (totalExponent m e)
  have hx := h.nonneg
  have hfloor := h.floor
  rw [← Int.toNat_of_nonneg (sub_nonneg.mpr hmin), Nat.cast_inj]
  apply eq_of_forall_ge_iff
  intro k
  have hspare : Rounding.spare F.mantissaBits ⌊x * ulp F e⌋₊ ≤ k ↔
      x < 2 ^ (F.mantissaBits + k - (e - F.minExponent) : ℤ) := by
    rw [Rounding.spare_le_iff (by omega), Nat.floor_lt (mul_nonneg hx (ulp_pos e).le), zpow_sub₀ two_ne_zero,
      lt_div_iff₀ (zpow_pos two_pos _), ulp_eq]
    norm_cast
  have htarget : (F.targetExponent (totalExponent m e) - F.minExponent).toNat ≤ k ↔
      (m.log2 : ℤ) + 1 ≤ F.mantissaBits + k - (e - F.minExponent) := by
    have hiff := targetExponent_le_iff (F := F) (t := totalExponent m e) (e := k + F.minExponent)
    unfold totalExponent at hiff hmin ⊢
    omega
  rw [hspare, htarget]
  constructor
  · intro hlt
    by_cases hm : m = 0
    · -- nothing to shift out, so the exponent is the least one
      subst hm
      have hiff := targetExponent_le_iff (F := F) (t := totalExponent 0 e) (e := e - 1)
      simp only [totalExponent, Nat.log2_zero] at he hiff ⊢
      omega
    · have hle : (m : ℝ) ≤ x := hfloor ▸ Nat.floor_le hx
      have hone : (1 : ℝ) ≤ m := by exact_mod_cast Nat.one_le_iff_ne_zero.mpr hm
      have hpos : 0 < (F.mantissaBits + k - (e - F.minExponent) : ℤ) := by
        rw [← one_lt_zpow_iff_right₀ (one_lt_two : (1 : ℝ) < 2)]
        linarith
      lift (F.mantissaBits + k - (e - F.minExponent) : ℤ) to ℕ using hpos.le with t
      have hlog : m < 2 ^ t := by
        rw [zpow_natCast] at hlt
        exact_mod_cast hle.trans_lt hlt
      rw [Rounding.log2_lt hm] at hlog
      omega
  · intro hle
    calc x < m + 1 := hfloor ▸ Nat.lt_floor_add_one x
      _ ≤ 2 ^ (m.log2 + 1) := by exact_mod_cast Nat.lt_log2_self (n := m)
      _ = 2 ^ ((m.log2 : ℤ) + 1) := by norm_cast
      _ ≤ 2 ^ (F.mantissaBits + k - (e - F.minExponent) : ℤ) := zpow_le_zpow_right₀ one_le_two hle

theorem shiftToExponent_describes (h : Describes m x acc) {t : ℤ} (ht : e ≤ t) :
    DescribedBy (x * ulp F e / ulp F t) (shiftToExponent m e acc t).1 ∧ (shiftToExponent m e acc t).2 = t := by
  obtain ⟨n, rfl⟩ : ∃ n : ℕ, t = e + n := ⟨(t - e).toNat, by omega⟩
  have hshift : (e + n - e).toNat = n := by omega
  simp only [shiftToExponent, hshift]
  refine ⟨?_, trivial⟩
  have hscaled : x * ulp F e / ulp F (e + n) = x / 2 ^ n := by
    simp only [ulp_eq]
    rw [show e + n - F.minExponent = (e - F.minExponent) + n by ring, zpow_add₀ two_ne_zero, zpow_natCast]
    field_simp
  rw [hscaled]
  exact (describedBy_ofMantissaAndAccuracy.mpr h).shiftRight n

/-- A mantissa that was rounded up to one bit too many is shifted once more, which drops nothing. -/
theorem carry {r : ℕ} {t : ℤ} (hr : r ≤ 2 ^ F.mantissaBits)
    (ht : F.minExponent = t ∨ F.minExponent < t ∧ 2 ^ (F.mantissaBits - 1) ≤ r) :
    ∃ (r' : ℕ) (t' : ℤ), (shiftToTargetExponent F r t .exact).1.mantissa = r' ∧
      (shiftToTargetExponent F r t .exact).2 = t' ∧ (r' : ℝ) * ulp F t' = r * ulp F t ∧
      (r' ≠ 0 → t' = F.targetExponent (totalExponent r' t')) := by
  have hp := two_le_mantissaBits F
  rcases hr.lt_or_eq with hlt | rfl
  · have htarget : F.targetExponent (totalExponent r t) ≤ t := by
      rw [targetExponent_le_iff, totalExponent]
      have hspare := Rounding.fits_of_lt hlt
      have hlog : r.log2 < F.mantissaBits := by
        by_cases hzero : r = 0
        · simp [hzero]
          omega
        · exact (Rounding.log2_lt hzero).mp hlt
      omega
    refine ⟨r, t, ?_, ?_, rfl, fun hne => ?_⟩
    · simp only [shiftToTargetExponent, shiftToExponent, Int.toNat_eq_zero.mpr (sub_nonpos.mpr htarget)]
      rfl
    · simp only [shiftToTargetExponent, shiftToExponent, Int.toNat_eq_zero.mpr (sub_nonpos.mpr htarget)]
      simp
    · refine (htarget.antisymm ?_).symm
      rcases ht with rfl | ⟨hmin, hlow⟩
      · exact minExponent_le_targetExponent _
      · have hlog : F.mantissaBits - 1 ≤ r.log2 := (Nat.le_log2 hne).mpr hlow
        refine le_trans ?_ (le_max_left _ _)
        unfold totalExponent
        omega
  · have hmin : F.minExponent ≤ t := by omega
    have htarget : F.targetExponent (totalExponent (2 ^ F.mantissaBits) t) = t + 1 := by
      simp only [Format.targetExponent, totalExponent, Nat.log2_two_pow]
      omega
    have hshift : (t + 1 - t).toNat = 1 := by omega
    obtain ⟨q, hq⟩ : ∃ q, F.mantissaBits = q + 1 := ⟨F.mantissaBits - 1, by omega⟩
    refine ⟨2 ^ q, t + 1, ?_, ?_, ?_, fun _ => ?_⟩
    · simp only [shiftToTargetExponent, shiftToExponent, htarget, hshift]
      change 2 ^ F.mantissaBits / 2 = 2 ^ q
      rw [hq, pow_succ, Nat.mul_div_cancel _ two_pos]
    · simp only [shiftToTargetExponent, shiftToExponent, htarget, hshift]
      rfl
    · have hulp : ulp F (t + 1) = 2 * ulp F t := by
        simp only [ulp_eq]
        rw [show t + 1 - F.minExponent = 1 + (t - F.minExponent) by ring, zpow_add₀ two_ne_zero, zpow_one]
      rw [hulp, hq]
      push_cast
      ring
    · simp only [Format.targetExponent, totalExponent, Nat.log2_two_pow]
      omega

/-- A mantissa with its accuracy is rounded to the value nearest to the number they describe. -/
theorem roundWithAccuracy_value (h : Describes m x acc) (he : e ≤ F.targetExponent (totalExponent m e))
    (s : Sign) :
    ofUnpacked F (roundWithAccuracy F s m e acc) = .rounded F (isNeg s) (x * ulp F e) ∧
      Canonical F (roundWithAccuracy F s m e acc) := by
  have hp := two_le_mantissaBits F
  have hmin := minExponent_le_targetExponent (F := F) (totalExponent m e)
  have hspare := h.spare he
  obtain ⟨hdesc, hexp⟩ := shiftToExponent_describes h he
  have hulp : ulp F (F.targetExponent (totalExponent m e)) =
      2 ^ Rounding.spare F.mantissaBits ⌊x * ulp F e⌋₊ := by
    rw [ulp_eq, ← hspare, zpow_natCast]
  have hround : (shiftToTargetExponent F m e acc).1.roundedMantissa =
      Rounding.nearest (x * ulp F e / 2 ^ Rounding.spare F.mantissaBits ⌊x * ulp F e⌋₊) := by
    rw [← hulp]
    exact hdesc.rounded
  have hle := Rounding.nearest_scaled_le (p := F.mantissaBits) (by omega) (x * ulp F e)
  rw [← hround] at hle
  obtain ⟨r, t, hr, ht, hvalue, hcanon⟩ := carry (t := F.targetExponent (totalExponent m e)) hle (by
    rcases hmin.eq_or_lt with heq | hlt
    · exact .inl heq
    · refine .inr ⟨hlt, ?_⟩
      rw [hround]
      exact Rounding.le_nearest_scaled (by omega) (by omega))
  have hunits : (r : ℝ) * ulp F t = Rounding.round F.mantissaBits (x * ulp F e) := by
    rw [hvalue, hulp, hround, Rounding.round]
    push_cast
    rfl
  have hexp' : (shiftToTargetExponent F m e acc).2 = F.targetExponent (totalExponent m e) := hexp
  rw [← hexp'] at hr ht
  have heq : roundWithAccuracy F s m e acc =
      if h : r = 0 then .zero s else .finite s r t (Nat.pos_of_ne_zero h) := by
    rw [← hr, ← ht]
    rfl
  rw [heq]
  split
  · rename_i hzero
    refine ⟨?_, trivial⟩
    rw [hzero, Nat.cast_zero, zero_mul] at hunits
    rw [← Value.rounded_round, ← hunits, Value.rounded_zero]
    rfl
  · rename_i hne
    refine ⟨?_, hcanon hne⟩
    rw [← Value.rounded_round, ← hunits]
    rfl

theorem round_value (hm : m ≠ 0) (s : Sign) (e : ℤ) :
    ofUnpacked F (UnpackedFloat.round F s m e) = .rounded F (isNeg s) (m * ulp F e) ∧
      Canonical F (UnpackedFloat.round F s m e) := by
  set t := F.targetExponent (totalExponent m e) with ht
  obtain ⟨n, hn⟩ : ∃ n, (e - t).toNat = n := ⟨_, rfl⟩
  have htotal : totalExponent (m * 2 ^ n) (e - n) = totalExponent m e := by
    simp only [totalExponent, Rounding.log2_mul_two_pow hm]
    push_cast
    ring
  have hround : UnpackedFloat.round F s m e = roundWithAccuracy F s (m * 2 ^ n) (e - n) .exact := by
    simp only [UnpackedFloat.round, decreaseExponent, ← ht, hn, Nat.shiftLeft_eq]
  have hscaled : ((m * 2 ^ n : ℕ) : ℝ) * ulp F (e - n) = m * ulp F e := by
    simp only [ulp_eq]
    rw [show e - F.minExponent = n + (e - n - F.minExponent) by ring, zpow_add₀ two_ne_zero, zpow_natCast]
    push_cast
    ring
  rw [hround, ← hscaled]
  apply roundWithAccuracy_value
  · rfl
  · rw [htotal]
    omega

theorem normalize_value (z : ℤ) (e : ℤ) (s : Sign) :
    ofUnpacked F (normalize F z e s) =
        (if z = 0 then .fin (isNeg s) 0 else .rounded F (decide (z < 0)) (z.natAbs * ulp F e)) ∧
      Canonical F (normalize F z e s) := by
  unfold UnpackedFloat.normalize
  obtain hneg | rfl | hpos := lt_trichotomy z 0
  · obtain ⟨hvalue, hcanon⟩ := round_value (F := F) (m := (-z).toNat) (by omega) .negative e
    rw [show compare z 0 = .lt from Int.compare_eq_lt.mpr hneg, if_neg hneg.ne, decide_eq_true hneg,
      show z.natAbs = (-z).toNat by omega]
    exact ⟨hvalue, hcanon⟩
  · exact ⟨rfl, trivial⟩
  · obtain ⟨hvalue, hcanon⟩ := round_value (F := F) (m := z.toNat) (by omega) .positive e
    rw [show compare z 0 = .gt from Int.compare_eq_gt.mpr hpos, if_neg hpos.ne', decide_eq_false hpos.not_gt,
      show z.natAbs = z.toNat by omega]
    exact ⟨hvalue, hcanon⟩

/-! ### Bit patterns -/

theorem exponentBias_eq (F : Format) :
    (F.exponentBias + F.mantissaBitsWithoutImplicit : ℤ) = 1 - F.minExponent := by
  have hpow := Nat.two_pow_pos (F.exponentBits - 1)
  simp only [Format.exponentBias, Format.minExponent, Format.mantissaBits]
  push_cast [Nat.cast_sub hpow]
  ring

/-- A canonical mantissa has all its bits, unless the exponent is the least one. -/
theorem Canonical.bounds {s : Sign} {hm : 0 < m} (h : Canonical F (.finite s m e hm)) :
    F.minExponent ≤ e ∧ m < 2 ^ F.mantissaBits ∧ (e = F.minExponent ∨ 2 ^ (F.mantissaBits - 1) ≤ m) := by
  have hp := two_le_mantissaBits F
  have hcanon : e = F.targetExponent (totalExponent m e) := h
  have hle := targetExponent_le_iff.mp hcanon.ge
  rw [totalExponent] at hle
  refine ⟨hle.2, (Rounding.log2_lt hm.ne').mpr (by omega), ?_⟩
  by_cases heq : e = F.minExponent
  · exact .inl heq
  · right
    rw [← Nat.le_log2 hm.ne']
    rw [Format.targetExponent, totalExponent] at hcanon
    omega

theorem Canonical.units {s : Sign} {hm : 0 < m} (h : Canonical F (.finite s m e hm)) :
    ∃ n : ℕ, e - F.minExponent = n ∧ m * ulp F e = ((m * 2 ^ n : ℕ) : ℝ) ∧
      Rounding.Fits F.mantissaBits (m * 2 ^ n) := by
  obtain ⟨hmin, hlt, -⟩ := h.bounds
  obtain ⟨n, hn⟩ : ∃ n : ℕ, e - F.minExponent = n := ⟨(e - F.minExponent).toNat, by omega⟩
  refine ⟨n, hn, ?_, Rounding.fits_mul_two_pow (mantissaBits_pos F) hlt.le n⟩
  rw [ulp_eq, hn, zpow_natCast]
  push_cast
  rfl

theorem unpack_pack (hbits : 2 ≤ F.exponentBits) {u : UnpackedFloat} (h : Canonical F u) :
    ofUnpacked F (unpack F (pack F u)) = ofUnpacked F u := by
  have hexp : 2 ^ 2 ≤ 2 ^ F.exponentBits := Nat.pow_le_pow_right two_pos hbits
  have hzero : (0#F.exponentBits) ≠ -1#F.exponentBits := by
    intro heq
    have hnat := congrArg BitVec.toNat heq
    rw [BitVec.neg_one_eq_allOnes, BitVec.toNat_allOnes, BitVec.toNat_ofNat, Nat.zero_mod] at hnat
    omega
  have hm := F.hm
  cases u with
  | notANumber =>
      have hquiet : 1#F.mantissaBitsWithoutImplicit <<< (F.mantissaBitsWithoutImplicit - 1) ≠ 0#_ := by
        intro heq
        have hnat := congrArg BitVec.toNat heq
        have hlt : 2 ^ (F.mantissaBitsWithoutImplicit - 1) < 2 ^ F.mantissaBitsWithoutImplicit :=
          Nat.pow_lt_pow_right one_lt_two (by omega)
        rw [BitVec.toNat_shiftLeft, BitVec.toNat_ofNat, Nat.one_mod_two_pow hm, Nat.shiftLeft_eq, one_mul,
          Nat.mod_eq_of_lt hlt] at hnat
        exact (Nat.two_pow_pos _).ne' hnat
      simp [pack, packedNaN, unpack, hquiet]
  | infinity s => simp [pack, packedInfinity, unpack]
  | zero s => simp [pack, packedZero, unpack, hzero]
  | finite s m e hpos =>
      obtain ⟨hmin, hlt, hlow⟩ := Canonical.bounds h
      have hbias := exponentBias_eq F
      obtain ⟨n, hn, hunits, hfits⟩ := Canonical.units h
      have hbiased : (e + F.exponentBias + F.mantissaBitsWithoutImplicit).toNat = n + 1 := by omega
      by_cases hlarge : 2 ^ F.exponentBits ≤ n + 2
      · have htop : top F ≤ m * 2 ^ n := by
          calc top F ≤ 2 ^ (F.mantissaBits - 1 + n) := Nat.pow_le_pow_right two_pos (by omega)
            _ = 2 ^ (F.mantissaBits - 1) * 2 ^ n := pow_add _ _ _
            _ ≤ m * 2 ^ n := Nat.mul_le_mul_right _ (hlow.resolve_left (by omega))
        have hinf : ofUnpacked F (.finite s m e hpos) = .inf (isNeg s) := by
          rw [ofUnpacked, hunits, Value.rounded_of_top_le _ hfits htop]
        rw [hinf]
        simp [pack, hbiased, hlarge, packedInfinity, unpack, ofUnpacked]
      · congr 1
        have hfield : (BitVec.ofNat F.exponentBits (n + 1)).toNat = n + 1 :=
          Nat.mod_eq_of_lt (by omega)
        have hbits' : F.mantissaBits = F.mantissaBitsWithoutImplicit + 1 := Nat.add_comm _ _
        by_cases hnormal : m.log2 + 1 = F.mantissaBits
        · have hzero' : BitVec.ofNat F.exponentBits (n + 1) ≠ 0#_ := by
            intro heq
            have hnat := congrArg BitVec.toNat heq
            rw [hfield, BitVec.toNat_ofNat, Nat.zero_mod] at hnat
            omega
          have hall : BitVec.ofNat F.exponentBits (n + 1) ≠ -1#_ := by
            intro heq
            have hnat := congrArg BitVec.toNat heq
            rw [hfield, BitVec.neg_one_eq_allOnes, BitVec.toNat_allOnes] at hnat
            omega
          have hmantissa : (1#1 ++ BitVec.ofNat F.mantissaBitsWithoutImplicit m).toNat = m := by
            have hge : 2 ^ F.mantissaBitsWithoutImplicit ≤ m := by
              rw [← Nat.le_log2 hpos.ne']
              omega
            have hlt' : m < 2 * 2 ^ F.mantissaBitsWithoutImplicit := by
              rw [← pow_succ']
              exact hbits' ▸ hlt
            rw [BitVec.toNat_append, BitVec.toNat_ofNat, BitVec.toNat_ofNat, ← Nat.shiftLeft_add_eq_or_of_lt
              (Nat.mod_lt _ (Nat.two_pow_pos _)), Nat.shiftLeft_eq]
            have hdiv := Nat.div_add_mod m (2 ^ F.mantissaBitsWithoutImplicit)
            rw [show m / 2 ^ F.mantissaBitsWithoutImplicit = 1 from
              Nat.div_eq_of_lt_le (by omega) (by omega)] at hdiv
            omega
          simp [pack, hbiased, hlarge, hnormal, unpack, hzero', hall, hmantissa, hfield]
          omega
        · have hleast : e = F.minExponent := by
            refine hlow.resolve_right fun hge => hnormal ?_
            have hlog := (Nat.le_log2 hpos.ne').mpr hge
            have hlog' := (Rounding.log2_lt hpos.ne').mp hlt
            omega
          have hsmall : m < 2 ^ F.mantissaBitsWithoutImplicit := by
            rw [Rounding.log2_lt hpos.ne'] at hlt ⊢
            omega
          have hmantissa : (BitVec.ofNat F.mantissaBitsWithoutImplicit m).toNat = m := Nat.mod_eq_of_lt hsmall
          have hzero' : BitVec.ofNat F.mantissaBitsWithoutImplicit m ≠ 0#_ := by
            intro heq
            have hnat := congrArg BitVec.toNat heq
            rw [hmantissa, BitVec.toNat_ofNat, Nat.zero_mod] at hnat
            omega
          simp [pack, hbiased, hlarge, hnormal, unpack, hzero, hzero', Nat.mod_eq_of_lt hsmall]
          omega

theorem toBitVec_ofBitVec (v : BitVec 1) : (Sign.ofBitVec v).toBitVec = v := by
  obtain rfl | rfl := BitVec.eq_zero_or_eq_one v <;> rfl

theorem packComponents_unpack (b : BitVec F.numBits) :
    packComponents F (Sign.ofBitVec (unpackSign b)) (unpackExponent b) (unpackMantissa b) = b := by
  rw [packComponents, toBitVec_ofBitVec]
  ext i hi
  simp only [BitVec.getElem_append, unpackMantissa, unpackExponent, unpackSign, BitVec.getElem_cast]
  split
  · simp [BitVec.getLsbD_eq_getElem, hi]
  · split
    all_goals
      simp
      rw [← BitVec.getLsbD_eq_getElem]
      congr 1
      omega

theorem toNat_unpackMantissa (b : BitVec F.numBits) :
    (1#1 ++ unpackMantissa b).toNat = 2 ^ F.mantissaBitsWithoutImplicit + (unpackMantissa b).toNat := by
  have hlt : (unpackMantissa b).toNat < 2 ^ F.mantissaBitsWithoutImplicit := BitVec.isLt _
  rw [BitVec.toNat_append, BitVec.toNat_ofNat, ← Nat.shiftLeft_add_eq_or_of_lt hlt, Nat.shiftLeft_eq]
  simp

theorem toNat_unpackExponent {b : BitVec F.numBits} (hzero : unpackExponent b ≠ 0#_)
    (hall : unpackExponent b ≠ -1#_) :
    0 < (unpackExponent b).toNat ∧ (unpackExponent b).toNat + 1 < 2 ^ F.exponentBits := by
  constructor
  · refine Nat.pos_of_ne_zero fun hnat => hzero (BitVec.eq_of_toNat_eq ?_)
    rw [hnat, BitVec.toNat_ofNat, Nat.zero_mod]
  · have hbound : (unpackExponent b).toNat < 2 ^ F.exponentBits := BitVec.isLt _
    refine lt_of_le_of_ne hbound fun heq => hall (BitVec.eq_of_toNat_eq ?_)
    rw [BitVec.neg_one_eq_allOnes, BitVec.toNat_allOnes]
    omega

theorem pack_unpack (hbits : 2 ≤ F.exponentBits) {b : BitVec F.numBits} (hvalid : F.Valid b) :
    pack F (unpack F b) = b := by
  have hp : F.mantissaBits = F.mantissaBitsWithoutImplicit + 1 := Nat.add_comm _ _
  have hb := packComponents_unpack b
  have hbias := exponentBias_eq F
  have hexp : 2 ^ 2 ≤ 2 ^ F.exponentBits := Nat.pow_le_pow_right two_pos hbits
  have hlt : (unpackMantissa b).toNat < 2 ^ F.mantissaBitsWithoutImplicit := BitVec.isLt _
  simp only [unpack]
  by_cases hall : unpackExponent b = -1#_
  · rw [if_pos hall]
    by_cases hmantissa : unpackMantissa b = 0#_
    · rw [if_pos hmantissa]
      rw [hall, hmantissa] at hb
      exact hb
    · rw [if_neg hmantissa]
      exact (hvalid.eq_packedNaN hall hmantissa).symm
  rw [if_neg hall]
  by_cases hzero : unpackExponent b = 0#_
  · rw [if_pos hzero]
    split
    · rename_i hmantissa
      rw [hzero, hmantissa] at hb
      exact hb
    · rename_i hmantissa
      have hne : (unpackMantissa b).toNat ≠ 0 := fun hnat => hmantissa (BitVec.eq_of_toNat_eq (by simpa))
      have hlog := (Rounding.log2_lt hne).mp hlt
      have hbiased : (((unpackExponent b).toNat : ℤ) - (F.exponentBias + F.mantissaBitsWithoutImplicit) + 1 +
          F.exponentBias + F.mantissaBitsWithoutImplicit).toNat = 1 := by
        rw [hzero, BitVec.toNat_ofNat, Nat.zero_mod]
        omega
      simp only [pack, hbiased]
      rw [if_neg (by omega), if_neg (by omega), BitVec.ofNat_toNat, BitVec.setWidth_eq, ← hzero]
      exact hb
  · rw [if_neg hzero]
    obtain ⟨hpos, hmax⟩ := toNat_unpackExponent hzero hall
    have hbiased : (((unpackExponent b).toNat : ℤ) - (F.exponentBias + F.mantissaBitsWithoutImplicit) +
        F.exponentBias + F.mantissaBitsWithoutImplicit).toNat = (unpackExponent b).toNat := by
      omega
    have hlog : (1#1 ++ unpackMantissa b).toNat.log2 = F.mantissaBitsWithoutImplicit := by
      rw [toNat_unpackMantissa, Nat.log2_eq_iff (by omega), pow_succ]
      omega
    have hmantissa : BitVec.ofNat F.mantissaBitsWithoutImplicit (1#1 ++ unpackMantissa b).toNat =
        unpackMantissa b := by
      apply BitVec.eq_of_toNat_eq
      rw [toNat_unpackMantissa, BitVec.toNat_ofNat, Nat.add_mod_left, Nat.mod_eq_of_lt hlt]
    simp only [pack, hbiased, hlog]
    rw [if_neg (by omega), if_pos (by omega), hmantissa, BitVec.ofNat_toNat, BitVec.setWidth_eq]
    exact hb

/-- Canonical and not too large. -/
def Regular (F : Format) : UnpackedFloat → Prop
  | .finite _ m e _ => e = F.targetExponent (totalExponent m e) ∧ m * ulp F e < top F
  | _ => True

theorem Regular.canonical {u : UnpackedFloat} (h : Regular F u) : Canonical F u := by
  cases u with
  | finite s m e hm => exact h.1
  | _ => trivial

theorem regular_subnormal {s : Sign} {hm : 0 < m} (hlt : m < 2 ^ F.mantissaBitsWithoutImplicit) :
    Regular F (.finite s m F.minExponent hm) := by
  have hp : F.mantissaBits = F.mantissaBitsWithoutImplicit + 1 := Nat.add_comm _ _
  have hexp : 2 ^ 1 ≤ 2 ^ F.exponentBits := Nat.pow_le_pow_right two_pos F.he
  constructor
  · have hlog := (Rounding.log2_lt hm.ne').mp hlt
    simp only [Format.targetExponent, totalExponent]
    omega
  · have htop : m < top F := hlt.trans_le (Nat.pow_le_pow_right two_pos (by omega))
    rw [ulp_eq, sub_self, zpow_zero, mul_one]
    exact_mod_cast htop

theorem regular_normal {s : Sign} {hm : 0 < m} (hlow : 2 ^ F.mantissaBitsWithoutImplicit ≤ m)
    (hhigh : m < 2 ^ F.mantissaBits) {n : ℕ} (hn : n + 2 < 2 ^ F.exponentBits) (he : e = F.minExponent + n) :
    Regular F (.finite s m e hm) := by
  have hp : F.mantissaBits = F.mantissaBitsWithoutImplicit + 1 := Nat.add_comm _ _
  subst he
  constructor
  · have hlow' := (Nat.le_log2 hm.ne').mpr hlow
    have hhigh' := (Rounding.log2_lt hm.ne').mp hhigh
    simp only [Format.targetExponent, totalExponent]
    omega
  · have htop : m * 2 ^ n < top F := by
      calc m * 2 ^ n < 2 ^ F.mantissaBits * 2 ^ n := Nat.mul_lt_mul_of_pos_right hhigh (Nat.two_pow_pos n)
        _ = 2 ^ (F.mantissaBits + n) := (pow_add _ _ _).symm
        _ ≤ top F := Nat.pow_le_pow_right two_pos (by omega)
    rw [ulp_eq, add_sub_cancel_left, zpow_natCast]
    exact_mod_cast htop

theorem unpack_regular (b : BitVec F.numBits) : Regular F (unpack F b) := by
  have hp : F.mantissaBits = F.mantissaBitsWithoutImplicit + 1 := Nat.add_comm _ _
  have hbias := exponentBias_eq F
  have hlt : (unpackMantissa b).toNat < 2 ^ F.mantissaBitsWithoutImplicit := BitVec.isLt _
  simp only [unpack]
  by_cases hall : unpackExponent b = -1#_
  · rw [if_pos hall]
    split <;> trivial
  rw [if_neg hall]
  by_cases hzero : unpackExponent b = 0#_
  · rw [if_pos hzero]
    split
    · trivial
    · have hleast : ((unpackExponent b).toNat : ℤ) - (F.exponentBias + F.mantissaBitsWithoutImplicit) + 1 =
          F.minExponent := by
        rw [hzero, BitVec.toNat_ofNat, Nat.zero_mod]
        omega
      rw [hleast]
      exact regular_subnormal hlt
  · rw [if_neg hzero]
    have hmantissa := toNat_unpackMantissa b
    obtain ⟨hpos, hmax⟩ := toNat_unpackExponent hzero hall
    apply regular_normal (n := (unpackExponent b).toNat - 1)
    · omega
    · rw [hp, pow_succ]
      omega
    · omega
    · omega

theorem Regular.magnitude {s : Sign} {hm : 0 < m} (h : Regular F (.finite s m e hm)) :
    ∃ mag : Magnitude F, ofUnpacked F (.finite s m e hm) = .fin (isNeg s) mag ∧
      (mag.units : ℝ) = m * ulp F e ∧ mag ≠ 0 := by
  obtain ⟨n, hn, hunits, hfits⟩ := h.canonical.units
  have hlt : m * 2 ^ n < top F := by
    have htop := h.2
    rw [hunits] at htop
    exact_mod_cast htop
  refine ⟨⟨m * 2 ^ n, hfits, hlt⟩, ?_, hunits.symm, ?_⟩
  · rw [ofUnpacked, hunits, Value.rounded_of_fits _ hfits hlt]
  · rw [Ne, Magnitude.eq_zero_iff]
    exact (Nat.mul_pos hm (Nat.two_pow_pos n)).ne'

end Ieee
