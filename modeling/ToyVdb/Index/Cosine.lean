import ToyVdb.Index.Metrics
import ToyVdb.Lib.IeeeBounds

/-!
# Products in single precision

The metrics that are made of sums of products. Such a sum is the same in either order, and where the components
are moderate, up to `2 ^ 51`, it is finite however many components there are. The cosine distance of moderate
vectors is therefore never NaN, and with what the source clamps it is between zero and two.
-/

namespace ToyVdb

open Ieee

/-! ### Sums of products -/

/-- The sum the metrics run over pairs of components. -/
def sumOfProducts (pairs : List (UInt32 × UInt32)) : Float32 :=
  pairs.foldl (fun sum pair => sum + Float32.ofBits pair.1 * Float32.ofBits pair.2) 0

namespace sumOfProducts

noncomputable def product (pair : UInt32 × UInt32) : Value .binary32 :=
  (value (Float32.ofBits pair.1)).mul (value (Float32.ofBits pair.2))

theorem value_eq (pairs : List (UInt32 × UInt32)) :
    value (sumOfProducts pairs) = pairs.foldl (fun sum pair => sum.add (product pair)) (.fin false 0) := by
  refine (List.foldl_hom value ?_).symm
  intro sum pair
  simp [product]

theorem swap (a b : Vec) : sumOfProducts (List.zip a b) = sumOfProducts (List.zip b a) := by
  apply value_injective
  rw [value_eq, value_eq, ← List.zip_swap b a, List.foldl_map]
  simp only [product, Prod.fst_swap, Prod.snd_swap, Value.mul_comm]

end sumOfProducts

/-! ### Moderate vectors -/

/-- Finite, and up to `2 ^ 51` in magnitude. -/
def Moderate (v : Vec) : Prop := ∀ x ∈ v, IsFinite x ∧ (floatUnits x).natAbs ≤ 2 ^ 200

instance (v : Vec) : Decidable (Moderate v) :=
  List.decidableBAll (fun x => IsFinite x ∧ (floatUnits x).natAbs ≤ 2 ^ 200) v

theorem within_of_moderate {v : Vec} (h : Moderate v) {x : UInt32} (hx : x ∈ v) :
    Value.Within (2 ^ 200) (value (Float32.ofBits x)) := by
  obtain ⟨hfinite, hle⟩ := h x hx
  obtain ⟨s, mag, hvalue, hsigned⟩ := value_of_isFinite hfinite
  rw [← hsigned, Value.natAbs_signed] at hle
  exact ⟨s, mag, hvalue, hle⟩

/-- How large a sum of products of moderate components becomes: it is below `2 ^ 128`. -/
def largestSum : ℕ := 2 ^ (251 + Float.Model.Format.mantissaBits .binary32)

theorem largestSum_lt_top : largestSum < top .binary32 := Nat.pow_lt_pow_right one_lt_two (by decide)

theorem sumOfProducts_within {pairs : List (UInt32 × UInt32)}
    (h : ∀ pair ∈ pairs, Value.Within (2 ^ 200) (value (Float32.ofBits pair.1)) ∧
      Value.Within (2 ^ 200) (value (Float32.ofBits pair.2))) :
    Value.Within largestSum (value (sumOfProducts pairs)) := by
  rw [sumOfProducts.value_eq]
  refine Value.foldl_add_within _ _ largestSum_lt_top fun pair hpair => ?_
  obtain ⟨hx, hy⟩ := h pair hpair
  refine Value.mul_within hx hy (Rounding.fits_two_pow (by decide) _) ?_ ?_
  · exact Nat.pow_lt_pow_right one_lt_two (by decide)
  · rw [one_binary32, ← pow_add, ← pow_add]

namespace Dot

theorem distance_eq (a b : Vec) : distance a b = -sumOfProducts (List.zip a b) := rfl

theorem distance_comm (a b : Vec) : distance a b = distance b a := by
  rw [distance_eq, distance_eq, sumOfProducts.swap]

end Dot

namespace Cosine

/-! ### The three sums -/

theorem sums_eq (a b : Vec) :
    sums a b = ⟨sumOfProducts (List.zip a b), sumOfProducts ((List.zip a b).map fun pair => (pair.1, pair.1)),
      sumOfProducts ((List.zip a b).map fun pair => (pair.2, pair.2))⟩ := by
  rw [sums]
  generalize List.zip a b = pairs
  induction pairs using List.reverseRecOn with
  | nil => rfl
  | append_singleton pairs pair ih =>
      rw [List.foldl_append, List.foldl_cons, List.foldl_nil, ih]
      simp [sumOfProducts, List.foldl_map]

theorem sums_swap (a b : Vec) : sums b a = ⟨(sums a b).dot, (sums a b).nb, (sums a b).na⟩ := by
  rw [sums_eq, sums_eq, ← List.zip_swap a b, List.map_map, List.map_map, List.zip_swap a b, sumOfProducts.swap]
  rfl

theorem distance_comm (a b : Vec) : distance a b = distance b a := by
  have hdenom : (sums a b).na.sqrt * (sums a b).nb.sqrt = (sums a b).nb.sqrt * (sums a b).na.sqrt := by
    apply value_injective
    rw [value_mul, value_mul, Value.mul_comm]
  simp only [distance, sums_swap a b, hdenom]

/-! ### Moderate vectors -/

section Moderate

variable {a b : Vec}

theorem sumOfSquares_within {pairs : List (UInt32 × UInt32)} {f : UInt32 × UInt32 → UInt32}
    (h : ∀ pair ∈ pairs, Value.Within (2 ^ 200) (value (Float32.ofBits (f pair)))) :
    Value.Within largestSum (value (sumOfProducts (pairs.map fun pair => (f pair, f pair)))) ∧
      Value.abs (value (sumOfProducts (pairs.map fun pair => (f pair, f pair)))) =
        value (sumOfProducts (pairs.map fun pair => (f pair, f pair))) := by
  constructor
  · apply sumOfProducts_within
    intro square hsquare
    obtain ⟨pair, hpair, rfl⟩ := List.mem_map.mp hsquare
    exact ⟨h pair hpair, h pair hpair⟩
  · rw [sumOfProducts.value_eq]
    refine (Value.foldl_add_of_abs _ _ fun square hsquare => ?_).1
    obtain ⟨pair, -, rfl⟩ := List.mem_map.mp hsquare
    exact Value.abs_mul_self _

/-- The three sums are finite, and those of squares are not negative. -/
theorem sums_within (ha : Moderate a) (hb : Moderate b) :
    Value.Within largestSum (value (sums a b).dot) ∧
      (Value.Within largestSum (value (sums a b).na) ∧ Value.abs (value (sums a b).na) = value (sums a b).na) ∧
      Value.Within largestSum (value (sums a b).nb) ∧ Value.abs (value (sums a b).nb) = value (sums a b).nb := by
  have hpairs : ∀ pair ∈ List.zip a b, Value.Within (2 ^ 200) (value (Float32.ofBits pair.1)) ∧
      Value.Within (2 ^ 200) (value (Float32.ofBits pair.2)) := by
    intro pair hpair
    obtain ⟨hx, hy⟩ := List.of_mem_zip (a := pair.1) (b := pair.2) hpair
    exact ⟨within_of_moderate ha hx, within_of_moderate hb hy⟩
  rw [sums_eq]
  exact ⟨sumOfProducts_within hpairs, sumOfSquares_within fun pair hpair => (hpairs pair hpair).1,
    sumOfSquares_within fun pair hpair => (hpairs pair hpair).2⟩

theorem denom_within (ha : Moderate a) (hb : Moderate b) :
    Value.Within largestSum (value ((sums a b).na.sqrt * (sums a b).nb.sqrt)) := by
  obtain ⟨-, ⟨hna, hna'⟩, hnb, hnb'⟩ := sums_within ha hb
  have hfits : ∀ e, Rounding.Fits (Float.Model.Format.mantissaBits .binary32) (2 ^ e) :=
    Rounding.fits_two_pow (by decide)
  have hroot : 2 ^ 212 < top .binary32 := Nat.pow_lt_pow_right one_lt_two (by decide)
  have hsquare : largestSum * one .binary32 = 2 ^ 212 * 2 ^ 212 := by
    have hexponent : 251 + Float.Model.Format.mantissaBits .binary32 + 149 = 212 + 212 := rfl
    rw [largestSum, one_binary32, ← pow_add, hexponent, pow_add]
  rw [value_mul, value_sqrt, value_sqrt]
  exact Value.mul_within (Value.sqrt_within hna hna' (hfits _) hroot hsquare.le)
    (Value.sqrt_within hnb hnb' (hfits _) hroot hsquare.le) (hfits _) largestSum_lt_top hsquare.ge

/-- How the source keeps the cosine between minus one and one. -/
def clamp (sim : Float32) : Float32 :=
  let sim := if sim > 1 then 1 else sim
  if sim < -1 then -1 else sim

theorem key_clamp {sim : Float32} (hne : value sim ≠ .nan) :
    value (clamp sim) ≠ .nan ∧
      Value.key (value (clamp sim)) =
        max (-(one .binary32 : ℤ)) (min (one .binary32) (Value.key (value sim))) := by
  have hone : value 1 ≠ .nan ∧ Value.key (value 1) = one .binary32 := by
    rw [value_one]
    exact ⟨by simp, rfl⟩
  have hone' : value (-1) ≠ .nan ∧ Value.key (value (-1)) = -(one .binary32 : ℤ) := by
    rw [value_neg, value_one]
    exact ⟨by simp [Value.neg], rfl⟩
  obtain ⟨upper, hupper⟩ : ∃ upper, upper = if sim > 1 then 1 else sim := ⟨_, rfl⟩
  have hkey : value upper ≠ .nan ∧ Value.key (value upper) = min (one .binary32 : ℤ) (Value.key (value sim)) := by
    rw [hupper]
    split_ifs with hgt
    · rw [gt_iff_lt, lt_iff] at hgt
      exact ⟨hone.1, by rw [hone.2, min_eq_left (hone.2.symm.le.trans hgt.2.2.le)]⟩
    · rw [gt_iff_lt, lt_iff] at hgt
      have hle := not_lt.mp fun hlt => hgt ⟨hone.1, hne, hlt⟩
      exact ⟨hne, (min_eq_right (hle.trans_eq hone.2)).symm⟩
  rw [clamp, ← hupper, ← hkey.2]
  split_ifs with hlt
  · rw [lt_iff] at hlt
    exact ⟨hone'.1, by rw [hone'.2, max_eq_left (hlt.2.2.le.trans_eq hone'.2)]⟩
  · rw [lt_iff] at hlt
    have hle := not_lt.mp fun hless => hlt ⟨hkey.1, hone'.1, hless⟩
    exact ⟨hkey.1, (max_eq_right (hone'.2.symm.le.trans hle)).symm⟩

theorem clamp_within {sim : Float32} (hne : value sim ≠ .nan) :
    Value.Within (one .binary32) (value (clamp sim)) := by
  obtain ⟨hne', hkey⟩ := key_clamp hne
  have hone := one_pos .binary32
  refine Value.within_of_key hne' (one_lt_top _) ?_ ?_ <;> rw [hkey]
  · exact le_max_left _ _
  · exact max_le (by omega) (min_le_left _ _)

theorem distance_within (ha : Moderate a) (hb : Moderate b) :
    ∃ mag : Magnitude .binary32, value (distance a b) = .fin false mag ∧ mag.units ≤ 2 * one .binary32 := by
  by_cases hzero : ((sums a b).na.sqrt * (sums a b).nb.sqrt == 0) = true
  · have hdistance : distance a b = 1 := if_pos hzero
    rw [hdistance]
    exact ⟨1, value_one, Nat.le_mul_of_pos_left _ two_pos⟩
  · have hdistance : distance a b = 1 - clamp ((sums a b).dot / ((sums a b).na.sqrt * (sums a b).nb.sqrt)) :=
      if_neg hzero
    have hdenom := denom_within ha hb
    rw [beq_iff, value_zero] at hzero
    have hne : value ((sums a b).dot / ((sums a b).na.sqrt * (sums a b).nb.sqrt)) ≠ .nan := by
      rw [value_div]
      refine Value.div_ne_nan (sums_within ha hb).1 hdenom fun hkey => ?_
      exact hzero ⟨hdenom.ne_nan, by simp, hkey⟩
    rw [hdistance, value_sub, value_one]
    have htwice : 2 * one .binary32 = 2 ^ 150 := (pow_succ' 2 149).symm
    rw [htwice]
    refine Value.one_sub_within (clamp_within hne) (Rounding.fits_two_pow (by decide) _)
      (Nat.pow_lt_pow_right one_lt_two (by decide)) ?_
    rw [(key_clamp hne).2, ← htwice]
    push_cast
    omega

/-- **The cosine distance in single precision.** It is the same float in either order. For vectors of any length
whose components are up to `2 ^ 51` it is never NaN and never the negative zero, and between zero and two. -/
theorem cosine_distance_is_sound (a b : Vec) :
    distance a b = distance b a ∧
      (Moderate a → Moderate b → (distance a b).isNaN = false ∧ distance a b ≠ -0 ∧
        0 ≤ toReal (distance a b) ∧ toReal (distance a b) ≤ 2) := by
  refine ⟨distance_comm a b, fun ha hb => ?_⟩
  obtain ⟨mag, hvalue, hle⟩ := distance_within ha hb
  have hone : (0 : ℝ) < one .binary32 := by exact_mod_cast one_pos _
  have hle' : (mag.units : ℝ) ≤ 2 * one .binary32 := by exact_mod_cast hle
  have hreal : toReal (distance a b) = mag.units / one .binary32 := by
    rw [toReal, hvalue]
    simp [Value.key, Value.signed]
  refine ⟨?_, ?_, ?_, ?_⟩
  · rw [Bool.eq_false_iff, Ne, isNaN_iff, hvalue]
    simp
  · intro heq
    rw [heq, value_neg, value_zero] at hvalue
    cases hvalue
  · rw [hreal]
    positivity
  · rw [hreal, div_le_iff₀ hone]
    exact hle'

theorem cosine_distance_is_sound_sample : (distance [0x3F800000, 0xC0490FDB] [0xBF800000, 0]).isNaN = false :=
  ((cosine_distance_is_sound [0x3F800000, 0xC0490FDB] [0xBF800000, 0]).2 (by decide +kernel) (by decide +kernel)).1

/-! ### A vector and itself -/

/-- What the source computes as the squared norm of a finite vector, before it is cut off at infinity. -/
noncomputable def squaredNorm (a : Vec) : ℕ :=
  runningSum .binary32 (a.map fun x => roundedSquare .binary32 (floatUnits x).natAbs)

theorem product_self_eq {x : UInt32} (hx : IsFinite x) :
    sumOfProducts.product (x, x) = .capped .binary32 (roundedSquare .binary32 (floatUnits x).natAbs) := by
  obtain ⟨s, mag, hvalue, hsigned⟩ := value_of_isFinite hx
  rw [sumOfProducts.product, hvalue, ← hsigned, Value.natAbs_signed, roundedSquare_of_fits mag.fits,
    ← Value.rounded_eq_capped]
  simp [Value.mul]

theorem sums_self (ha : Moderate a) :
    ∃ norm, sums a a = ⟨norm, norm, norm⟩ ∧ value norm = .capped .binary32 (squaredNorm a) := by
  have hzip : List.zip a a = a.map fun x => (x, x) := by
    rw [List.zip_eq_zipWith, List.zipWith_self]
  refine ⟨sumOfProducts (List.zip a a), ?_, ?_⟩
  · rw [sums_eq, hzip, List.map_map, List.map_map]
    rfl
  · have hfits : ∀ term ∈ a.map fun x => roundedSquare .binary32 (floatUnits x).natAbs,
        Rounding.Fits (Float.Model.Format.mantissaBits .binary32) term := by
      intro term hterm
      obtain ⟨x, -, rfl⟩ := List.mem_map.mp hterm
      exact roundedSquare_fits _
    rw [sumOfProducts.value_eq, hzip, squaredNorm, ← foldl_add_capped _ hfits, List.foldl_map, List.foldl_map]
    apply List.foldl_ext
    intro sum x hx
    rw [product_self_eq (ha x hx).1]

theorem squaredNorm_eq_zero_iff (ha : Moderate a) :
    squaredNorm a = 0 ↔ ∀ x ∈ a, (floatUnits x).natAbs ≤ 2 ^ 74 := by
  rw [squaredNorm, runningSum_eq_zero_iff]
  simp only [List.forall_mem_map]
  refine forall₂_congr fun x hx => ?_
  obtain ⟨s, mag, -, hsigned⟩ := value_of_isFinite (ha x hx).1
  rw [← hsigned, Value.natAbs_signed, roundedSquare_eq_zero_iff, Rounding.round_eq_self mag.fits,
    sq_underflows_iff]

theorem fits_squaredNorm (a : Vec) :
    Rounding.Fits (Float.Model.Format.mantissaBits .binary32) (squaredNorm a) :=
  runningSum_fits _

theorem squaredNorm_le (ha : Moderate a) : squaredNorm a ≤ largestSum := by
  obtain ⟨norm, hsums, hvalue⟩ := sums_self ha
  obtain ⟨s, mag, hmag, hle⟩ := (sums_within ha ha).1
  rw [hsums, hvalue] at hmag
  have hkey := congrArg Value.key hmag
  rw [Value.key_capped (fits_squaredNorm a)] at hkey
  have htop := largestSum_lt_top
  cases s <;> simp only [Value.key, Value.signed] at hkey <;> norm_num at hkey <;> omega

/-- Where the norm is not lost, the cosine is one but for a few roundings. -/
theorem similarity_self (ha : Moderate a) (hpos : 0 < squaredNorm a) :
    ∃ sim, distance a a = 1 - clamp sim ∧ value sim ≠ .nan ∧
      (one .binary32 : ℤ) - 2 ^ 128 ≤ Value.key (value sim) := by
  obtain ⟨norm, hsums, hvalue⟩ := sums_self ha
  have hlt : 2 * squaredNorm a < top .binary32 := by
    refine (Nat.mul_le_mul_left 2 (squaredNorm_le ha)).trans_lt ?_
    rw [largestSum, ← pow_succ']
    exact Nat.pow_lt_pow_right one_lt_two (by decide)
  obtain ⟨d, hne, hdenom, c, hfits, hdiv, hlow⟩ := Value.div_square_root (F := .binary32) hpos (fits_squaredNorm a)
    hlt (Nat.pow_le_pow_right two_pos (by decide)) (by decide)
  have hdenom' : value (norm.sqrt * norm.sqrt) = .fin false d := by
    rw [value_mul, value_sqrt, hvalue]
    exact hdenom
  have hnonzero : ¬ (norm.sqrt * norm.sqrt == 0) = true := by
    rw [beq_iff, hdenom', value_zero]
    rintro ⟨-, -, hkey⟩
    exact Value.signed_ne_zero hne false (by simpa [Value.key] using hkey)
  have hsim : value (norm / (norm.sqrt * norm.sqrt)) = .capped .binary32 c := by
    rw [value_div, hdenom', hvalue]
    exact hdiv
  refine ⟨norm / (norm.sqrt * norm.sqrt), ?_, ?_, ?_⟩
  · rw [distance, hsums]
    exact if_neg hnonzero
  · rw [hsim]
    exact Value.capped_ne_nan _
  · have hle : (one .binary32 : ℝ) - 2 ^ 128 ≤ c := by
      refine le_trans (le_of_eq ?_) hlow
      have hround : roundoff .binary32 = 1 / 2 ^ 24 := roundoff_eq _
      rw [hround, one_binary32]
      norm_num
    have htop := one_lt_top .binary32
    rw [hsim, Value.key_capped hfits]
    have hle' : (one .binary32 : ℤ) - 2 ^ 128 ≤ c := by exact_mod_cast hle
    push_cast
    rw [le_min_iff]
    constructor <;> omega

theorem distance_self_le {a : Vec} (ha : Moderate a) (hlarge : ∃ x ∈ a, 2 ^ 74 < (floatUnits x).natAbs) :
    toReal (distance a a) ≤ 1 / 2 ^ 21 := by
  obtain ⟨x, hx, hlarge⟩ := hlarge
  have hpos : 0 < squaredNorm a := by
    rw [Nat.pos_iff_ne_zero, Ne, squaredNorm_eq_zero_iff ha]
    exact fun hall => absurd (hall x hx) (not_le.mpr hlarge)
  obtain ⟨sim, hdistance, hne, hsim⟩ := similarity_self ha hpos
  have hone : (one .binary32 : ℤ) - Value.key (value (clamp sim)) ≤ (2 ^ 128 : ℕ) := by
    have hone := one_pos .binary32
    rw [(key_clamp hne).2]
    push_cast
    omega
  obtain ⟨mag, hvalue, hle⟩ := Value.one_sub_within (clamp_within hne) (Rounding.fits_two_pow (by decide) 128)
    (Nat.pow_lt_pow_right one_lt_two (by decide)) hone
  have hle' : (mag.units : ℝ) ≤ 2 ^ 128 := by exact_mod_cast hle
  rw [hdistance, toReal, value_sub, value_one, hvalue, one_binary32, div_le_iff₀ (by positivity)]
  refine le_trans (le_of_eq ?_) (hle'.trans (le_of_eq ?_))
  · simp [Value.key, Value.signed]
  · norm_num

/-- **The cosine distance of a vector from itself.** For finite components up to `2^51` it is at most `2^-21`, unless
all of them are so small that their squares underflow, when it is exactly one. -/
theorem self_distance (a : Vec) (ha : Moderate a) :
    ((∃ x ∈ a, 2 ^ 74 < (floatUnits x).natAbs) → toReal (distance a a) ≤ 1 / 2 ^ 21) ∧
      ((∀ x ∈ a, (floatUnits x).natAbs ≤ 2 ^ 74) → distance a a = 1) := by
  refine ⟨distance_self_le ha, ?_⟩
  intro hsmall
  obtain ⟨norm, hsums, hvalue⟩ := sums_self ha
  rw [(squaredNorm_eq_zero_iff ha).mpr hsmall] at hvalue
  have hzero : norm = 0 := value_injective (hvalue.trans (Value.capped_units 0))
  have hroot : (0 : Float32).sqrt * (0 : Float32).sqrt = 0 := by
    apply value_injective
    rw [value_mul, value_sqrt, value_zero]
    simp [Value.sqrt, Value.mul]
  rw [distance, hsums, hzero, hroot]
  rfl

theorem self_distance_sample : toReal (distance [0x3F800000, 0xC0490FDB] [0x3F800000, 0xC0490FDB]) ≤ 1 / 2 ^ 21 :=
  (self_distance [0x3F800000, 0xC0490FDB] (by decide +kernel)).1 ⟨0x3F800000, by decide +kernel, by decide +kernel⟩

end Moderate

end Cosine

end ToyVdb
