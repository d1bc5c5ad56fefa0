import ToyVdb.Index.Metrics

/-!
# The squared distance in single precision

What rounding, underflow and overflow leave of the squared Euclidean distance: it is the same in either order, it
is NaN only where it has to be, it is never negative, and it is off by a few parts in `2 ^ 24`, and by `2 ^ -150`
for each component where squares are too small to be represented.
-/

namespace ToyVdb

namespace L2

open Ieee

/-! ### On values -/

/-- The square of the difference of a pair of components. -/
noncomputable def square (pair : UInt32 × UInt32) : Value .binary32 :=
  let diff := (value (Float32.ofBits pair.1)).sub (value (Float32.ofBits pair.2))
  diff.mul diff

theorem value_distance (a b : Vec) :
    value (distance a b) = (List.zip a b).foldl (fun sum pair => sum.add (square pair)) (.fin false 0) := by
  refine (List.foldl_hom value ?_).symm
  intro sum pair
  simp [square]

theorem square_swap (pair : UInt32 × UInt32) : square pair.swap = square pair := by
  simp only [square, Prod.fst_swap, Prod.snd_swap]
  rw [← Value.mul_self_abs, Value.abs_sub_comm, Value.mul_self_abs]

theorem distance_comm (a b : Vec) : distance a b = distance b a := by
  apply value_injective
  rw [value_distance, value_distance, ← List.zip_swap b a, List.foldl_map]
  simp only [square_swap]

/-! ### What is no number -/

/-- The difference of two like infinities is no number, and they are like only if they are the same. -/
theorem square_eq_nan_iff (x y : UInt32) : square (x, y) = .nan ↔ squaredDifference x y = .nan := by
  have hinf : (∃ s, value (Float32.ofBits x) = .inf s ∧ value (Float32.ofBits y) = .inf s) ↔
      IsInfinite x ∧ x = y := by
    simp only [value_eq_inf_iff]
    constructor
    · rintro ⟨s, ⟨hx, hs⟩, hy, ht⟩
      refine ⟨hx, UInt32.toNat_inj.mp ?_⟩
      have hsame := hs.symm.trans ht
      rw [decide_eq_decide] at hsame
      have hx32 := x.toNat_lt
      have hy32 := y.toNat_lt
      unfold IsInfinite at hx hy
      omega
    · rintro ⟨hx, rfl⟩
      exact ⟨_, ⟨hx, rfl⟩, hx, rfl⟩
  rw [square, Value.mul_self_eq_nan_iff, Value.sub_eq_nan_iff, value_eq_nan_iff, value_eq_nan_iff, hinf,
    squaredDifference]
  split_ifs with hcond <;> simp [hcond]

theorem foldl_add_eq_nan_iff (terms : List (WithNaN Int)) (init : WithNaN Int) :
    terms.foldl WithNaN.add init = .nan ↔ init = .nan ∨ .nan ∈ terms := by
  induction terms generalizing init with
  | nil => simp
  | cons term terms ih =>
      rw [List.foldl_cons, ih, List.mem_cons]
      cases init <;> cases term <;> simp [WithNaN.add]

/-- **The squared distance in single precision.** For any two vectors, whatever their bits are: it is the same
float in either order; it is NaN exactly where the distance without rounding is, which is where a component is
NaN or both are the same infinity; and it is never negative, not even the negative zero. -/
theorem l2_distance_is_sound (a b : Vec) :
    distance a b = distance b a ∧
      ((distance a b).isNaN = true ↔ l2NaN.distance a b = .nan) ∧
      ¬ distance a b < 0 ∧ distance a b ≠ -0 := by
  obtain ⟨habs, hnan⟩ := Value.foldl_add_of_abs square (List.zip a b) fun pair _ => Value.abs_mul_self _
  rw [← value_distance] at habs hnan
  refine ⟨distance_comm a b, ?_, ?_, ?_⟩
  · rw [isNaN_iff, hnan, l2NaN, foldl_add_eq_nan_iff, ← List.map_uncurry_zip_eq_zipWith]
    simp [square_eq_nan_iff]
  · rw [lt_iff, value_zero]
    exact Value.not_lt_zero_of_abs habs
  · intro heq
    rw [heq, value_neg, value_zero] at habs
    cases habs

/-! ### Finite vectors -/

/-- The components are finite. -/
def AllFinite (v : Vec) : Prop := ∀ x ∈ v, IsFinite x

instance (v : Vec) : Decidable (AllFinite v) := List.decidableBAll IsFinite v

/-- How far the components of two vectors are apart, in units of `2^-149`. -/
def differences (a b : Vec) : List ℕ :=
  (List.zip a b).map fun pair => (floatUnits pair.1 - floatUnits pair.2).natAbs

/-- What the source computes, before it is cut off at infinity. -/
noncomputable def units (a b : Vec) : ℕ :=
  runningSum .binary32 ((differences a b).map (roundedSquare .binary32))

theorem square_eq {x y : UInt32} (hx : IsFinite x) (hy : IsFinite y) :
    square (x, y) = .capped .binary32 (roundedSquare .binary32 (floatUnits x - floatUnits y).natAbs) := by
  obtain ⟨s, mag, hvalue, hsigned⟩ := value_of_isFinite hx
  obtain ⟨t, mag', hvalue', hsigned'⟩ := value_of_isFinite hy
  rw [square, ← Value.mul_self_abs, hvalue, hvalue', Value.abs_sub_fin, hsigned, hsigned',
    Value.mul_self_capped (Rounding.round_fits (mantissaBits_pos _) _)]
  rfl

theorem fits_units (a b : Vec) : Rounding.Fits (Float.Model.Format.mantissaBits .binary32) (units a b) :=
  runningSum_fits _

/-- On finite vectors nothing but the size of the result is lost to infinity. -/
theorem value_distance_eq {a b : Vec} (ha : AllFinite a) (hb : AllFinite b) :
    value (distance a b) = .capped .binary32 (units a b) := by
  have hfits : ∀ term ∈ (differences a b).map (roundedSquare .binary32), Rounding.Fits 24 term := by
    intro term hterm
    obtain ⟨n, -, rfl⟩ := List.mem_map.mp hterm
    exact roundedSquare_fits n
  rw [value_distance, units, ← foldl_add_capped _ hfits, differences, List.map_map, List.foldl_map]
  apply List.foldl_ext
  intro sum pair hpair
  obtain ⟨hx, hy⟩ := List.of_mem_zip (a := pair.1) (b := pair.2) hpair
  exact congrArg sum.add (square_eq (ha _ hx) (hb _ hy))

theorem exactSquares_eq (a b : Vec) :
    exactSquares .binary32 (differences a b) = (squaredDistance a b : ℝ) / 2 ^ 149 := by
  induction a generalizing b with
  | nil => simp [exactSquares, differences, squaredDistance]
  | cons x a ih =>
      cases b with
      | nil => simp [exactSquares, differences, squaredDistance]
      | cons y b =>
          have hcons : exactSquares .binary32 (differences (x :: a) (y :: b)) =
              (floatUnits x - floatUnits y).natAbs * (floatUnits x - floatUnits y).natAbs / one .binary32 +
                exactSquares .binary32 (differences a b) := by
            simp [exactSquares, differences]
          have hsquare : ((floatUnits x - floatUnits y).natAbs : ℝ) * (floatUnits x - floatUnits y).natAbs =
              ((floatUnits x - floatUnits y) * (floatUnits x - floatUnits y) : ℤ) := by
            rw [Nat.cast_natAbs, Int.cast_abs, abs_mul_abs_self, Int.cast_mul]
          rw [hcons, ih, squaredDistance, hsquare, one_binary32]
          push_cast
          ring

theorem squaredDistance_nonneg (a b : Vec) : 0 ≤ squaredDistance a b := by
  induction a generalizing b with
  | nil => simp [squaredDistance]
  | cons x a ih =>
      cases b with
      | nil => simp [squaredDistance]
      | cons y b => exact add_nonneg (mul_self_nonneg _) (ih b)

/-- The error of the sum, whose terms are at most as many as the components of one vector. -/
theorem units_bounds (a b : Vec) :
    (1 - 1 / 2 ^ 24) ^ (a.length + 2) * (squaredDistance a b / 2 ^ 149) - a.length / 2 ≤ (units a b : ℝ) ∧
      (units a b : ℝ) ≤ (1 + 1 / 2 ^ 24) ^ (a.length + 2) * (squaredDistance a b / 2 ^ 149 + a.length / 2) := by
  have hlen : (differences a b).length ≤ a.length := by
    simp [differences]
  have hlen' : ((differences a b).length : ℝ) ≤ a.length := by exact_mod_cast hlen
  have hexact : (0 : ℝ) ≤ squaredDistance a b / 2 ^ 149 := by
    have hnonneg : (0 : ℝ) ≤ squaredDistance a b := by exact_mod_cast squaredDistance_nonneg a b
    positivity
  obtain ⟨hlow, hhigh⟩ := sumOfSquares_bounds (F := .binary32) (differences a b)
  have hround : roundoff .binary32 = 1 / 2 ^ 24 := roundoff_eq _
  rw [exactSquares_eq, hround, ← units] at hlow hhigh
  constructor
  · refine le_trans ?_ hlow
    have hpow : (1 - 1 / 2 ^ 24 : ℝ) ^ (a.length + 2) ≤ (1 - 1 / 2 ^ 24) ^ ((differences a b).length + 2) :=
      pow_le_pow_of_le_one (by norm_num) (by norm_num) (by omega)
    have hmul := mul_le_mul_of_nonneg_right hpow hexact
    linarith
  · refine hhigh.trans ?_
    have hbase : (1 : ℝ) ≤ 1 + 1 / 2 ^ 24 := by norm_num
    gcongr

/-- **The error of the squared distance.** For finite vectors, the first of n components, the computed distance is
off from the exact one by at most n + 2 factors of `1 ± 2^-24` and `2^-150` for each component; an infinite result
counts as `2^128`, which the exact distance reaches then but for that error. -/
theorem distance_error (a b : Vec) (ha : AllFinite a) (hb : AllFinite b) :
    toReal (distance a b) ≤
        (1 + 1 / 2 ^ 24) ^ (a.length + 2) * (squaredDistance a b / 2 ^ 298 + a.length / 2 ^ 150) ∧
      ((distance a b).isInf = false →
        (1 - 1 / 2 ^ 24) ^ (a.length + 2) * (squaredDistance a b / 2 ^ 298) - a.length / 2 ^ 150 ≤
          toReal (distance a b)) := by
  have hvalue := value_distance_eq ha hb
  obtain ⟨hlow, hhigh⟩ := units_bounds a b
  have hone : (one .binary32 : ℝ) = 2 ^ 149 := by
    rw [one_binary32]
    norm_num
  have hsquared : (2 : ℝ) ^ 298 = 2 ^ 149 * 2 ^ 149 := by rw [← pow_add]
  rw [toReal, hvalue, Value.key_capped (fits_units a b), hone, hsquared]
  constructor
  · have hmin : ((min (units a b) (top .binary32) : ℕ) : ℝ) ≤ units a b := by
      exact_mod_cast min_le_left _ _
    rw [Int.cast_natCast, div_le_iff₀ (by positivity)]
    calc ((min (units a b) (top .binary32) : ℕ) : ℝ) ≤ units a b := hmin
      _ ≤ (1 + 1 / 2 ^ 24) ^ (a.length + 2) * (squaredDistance a b / 2 ^ 149 + a.length / 2) := hhigh
      _ = (1 + 1 / 2 ^ 24) ^ (a.length + 2) * (squaredDistance a b / (2 ^ 149 * 2 ^ 149) + a.length / 2 ^ 150) *
            2 ^ 149 := by
          ring
  · intro hfinite
    have hlt : units a b < top .binary32 := by
      by_contra hge
      have hinf := (isInf_iff _).mpr ⟨false, hvalue.trans (Value.capped_of_top_le (not_lt.mp hge) (fits_units a b))⟩
      simp [hfinite] at hinf
    rw [min_eq_left hlt.le, Int.cast_natCast, le_div_iff₀ (by positivity)]
    calc ((1 - 1 / 2 ^ 24) ^ (a.length + 2) * (squaredDistance a b / (2 ^ 149 * 2 ^ 149) : ℝ) -
            a.length / 2 ^ 150) * 2 ^ 149
        = (1 - 1 / 2 ^ 24) ^ (a.length + 2) * (squaredDistance a b / 2 ^ 149) - a.length / 2 := by ring
      _ ≤ (units a b : ℝ) := hlow

theorem distance_error_sample :
    toReal (distance [0x3F800000, 0x40490FDB] [0x3DCCCCCD, 0]) ≤
      (1 + 1 / 2 ^ 24) ^ 4 *
        (squaredDistance [0x3F800000, 0x40490FDB] [0x3DCCCCCD, 0] / 2 ^ 298 + (2 : ℕ) / 2 ^ 150) :=
  (distance_error [0x3F800000, 0x40490FDB] [0x3DCCCCCD, 0] (by decide +kernel) (by decide +kernel)).1

/-- **When the squared distance is zero.** Two finite vectors are at distance zero exactly where no components are
further apart than `2^-75 + 2^-99`, the largest difference whose square underflows; they need not be equal. -/
theorem distance_eq_zero_iff (a b : Vec) (ha : AllFinite a) (hb : AllFinite b) :
    distance a b = 0 ↔
      ∀ pair ∈ List.zip a b, (floatUnits pair.1 - floatUnits pair.2).natAbs ≤ 2 ^ 74 + 2 ^ 50 := by
  have hzero : distance a b = 0 ↔ units a b = 0 := by
    rw [← value_injective.eq_iff, value_distance_eq ha hb, value_zero]
    constructor
    · intro heq
      have hkey := congrArg Value.key heq
      rw [Value.key_capped (fits_units a b)] at hkey
      have htop := top_pos .binary32
      simp only [Value.key, Value.signed_zero] at hkey
      omega
    · intro heq
      rw [heq]
      exact Value.capped_units 0
  have hsquare : ∀ n, roundedSquare .binary32 n = 0 ↔ n ≤ 2 ^ 74 + 2 ^ 50 := by
    intro n
    rw [roundedSquare_eq_zero_iff, sq_underflows_iff]
    exact Rounding.round_le_two_pow_iff (p := 24) (by decide) 50 n
  rw [hzero, units, runningSum_eq_zero_iff]
  simp only [List.forall_mem_map, hsquare, differences]

/-- Two different floats near `2^-76`. -/
theorem distance_eq_zero_sample : distance [0x19800000] [0x19800001] = 0 := by
  refine (distance_eq_zero_iff [0x19800000] [0x19800001] (by decide +kernel) (by decide +kernel)).mpr ?_
  intro pair hpair
  obtain rfl := List.mem_singleton.mp hpair
  decide +kernel

end L2

end ToyVdb
