import ToyVdb.Index.Undefined
import ToyVdb.Lib.IeeeSums

/-!
# The metrics

The three distance policies as the source computes them, in single precision: every operation is rounded to
the nearest float, and no product is fused with the sum it goes into. Smaller is closer in each of them.
-/

namespace ToyVdb

/-- Squared Euclidean distance. -/
def L2.distance (a b : Vec) : Float32 :=
  (List.zip a b).foldl (fun sum pair =>
    let diff := Float32.ofBits pair.1 - Float32.ofBits pair.2
    sum + diff * diff) 0

/-- Negated, so that the larger product sorts first. -/
def Dot.distance (a b : Vec) : Float32 :=
  -((List.zip a b).foldl (fun dot pair => dot + Float32.ofBits pair.1 * Float32.ofBits pair.2) 0)

namespace Cosine

/-- The sums of one pass over two vectors. -/
structure Sums where
  dot : Float32 := 0
  na : Float32 := 0
  nb : Float32 := 0

def sums (a b : Vec) : Sums :=
  (List.zip a b).foldl (fun st pair =>
    let x := Float32.ofBits pair.1
    let y := Float32.ofBits pair.2
    ⟨st.dot + x * y, st.na + x * x, st.nb + y * y⟩) {}

/-- One minus the cosine of the angle; it is kept within two where rounding would take it out. -/
def distance (a b : Vec) : Float32 :=
  let st := sums a b
  let denom := st.na.sqrt * st.nb.sqrt
  -- no direction, so as far as can be
  if denom == 0 then 1
  else
    let sim := st.dot / denom
    let sim := if sim > 1 then 1 else sim
    let sim := if sim < -1 then -1 else sim
    1 - sim

end Cosine

inductive MetricKind
  | l2
  | cosine
  | dot
deriving DecidableEq

/-- `std::numeric_limits<Score>::max()`. -/
def maxFloat : Float32 := Float32.ofBits 0x7F7FFFFF

/-- The policy the index factory instantiates the index with. -/
def MetricKind.metric : MetricKind → Metric Float32
  | l2 => ⟨L2.distance, maxFloat⟩
  | cosine => ⟨Cosine.distance, maxFloat⟩
  | dot => ⟨Dot.distance, maxFloat⟩

/-! ### Components -/

/-- Neither infinite nor NaN. -/
def IsFinite (bits : UInt32) : Prop := bits.toNat / 2 ^ 23 % 2 ^ 8 ≠ 255

instance (bits : UInt32) : Decidable (IsFinite bits) := inferInstanceAs (Decidable (_ ≠ _))

open Float.Model.UnpackedFloat in
theorem value_ofBits (bits : UInt32) :
    Ieee.value (Float32.ofBits bits) = Ieee.ofUnpacked .binary32 (unpack .binary32 bits.toBitVec) :=
  Ieee.value_pack (Ieee.unpack_regular _).canonical

section Fields

open Float.Model.UnpackedFloat
open Float.Model (Format)

variable (bits : UInt32)

theorem toNat_unpackMantissa :
    (@unpackMantissa .binary32 bits.toBitVec).toNat = bits.toNat % 2 ^ 23 := by
  simp [unpackMantissa]

theorem toNat_unpackExponent :
    (@unpackExponent .binary32 bits.toBitVec).toNat = bits.toNat / 2 ^ 23 % 2 ^ 8 := by
  simp [unpackExponent, Nat.shiftRight_eq_div_pow]

theorem ofBitVec_unpackSign :
    Sign.ofBitVec (@unpackSign .binary32 bits.toBitVec) =
      if bits.toNat / 2 ^ 31 = 0 then .positive else .negative := by
  have hlt := bits.toNat_lt
  have hbit : @unpackSign .binary32 bits.toBitVec = 0#1 ↔ bits.toNat / 2 ^ 31 = 0 := by
    rw [← BitVec.toNat_inj]
    simp [unpackSign, Nat.shiftRight_eq_div_pow]
    omega
  simp only [Sign.ofBitVec, hbit]

theorem unpackExponent_eq_iff (e : BitVec 8) :
    @unpackExponent .binary32 bits.toBitVec = e ↔ bits.toNat / 2 ^ 23 % 2 ^ 8 = e.toNat := by
  rw [← toNat_unpackExponent, BitVec.toNat_inj]

theorem exists_magnitude {m : ℕ} {e : ℤ} {n : ℕ} {s : Sign} (hm : 0 < m)
    (hregular : Ieee.Regular .binary32 (.finite s m e hm)) (he : e - Format.binary32.minExponent = n) :
    ∃ mag : Ieee.Magnitude .binary32,
      Ieee.ofUnpacked .binary32 (.finite s m e hm) = .fin (Ieee.isNeg s) mag ∧ mag.units = m * 2 ^ n := by
  obtain ⟨mag, hvalue, hunits, -⟩ := hregular.magnitude
  refine ⟨mag, hvalue, ?_⟩
  rw [Ieee.ulp_eq, he, zpow_natCast] at hunits
  exact_mod_cast hunits

theorem floatUnits_eq {s : Sign} {mag : Ieee.Magnitude .binary32}
    (hs : s = if bits.toNat / 2 ^ 31 = 0 then .positive else .negative)
    (hmag : mag.units = if bits.toNat / 2 ^ 23 % 2 ^ 8 = 0 then bits.toNat % 2 ^ 23
      else (bits.toNat % 2 ^ 23 + 2 ^ 23) * 2 ^ (bits.toNat / 2 ^ 23 % 2 ^ 8 - 1)) :
    Ieee.Value.signed (Ieee.isNeg s) mag = floatUnits bits := by
  simp only [floatUnits, Ieee.Value.signed, ← hmag]
  by_cases hpos : bits.toNat / 2 ^ 31 = 0
  · rw [if_pos hpos] at hs ⊢
    rw [hs]
    rfl
  · rw [if_neg hpos] at hs ⊢
    rw [hs]
    rfl

theorem value_of_isFinite {bits : UInt32} (h : IsFinite bits) :
    ∃ (s : Bool) (mag : Ieee.Magnitude .binary32),
      Ieee.value (Float32.ofBits bits) = .fin s mag ∧ Ieee.Value.signed s mag = floatUnits bits := by
  have hall : @unpackExponent .binary32 bits.toBitVec ≠ -1#_ := fun heq =>
    h ((unpackExponent_eq_iff bits _).mp heq)
  have hregular := Ieee.unpack_regular (F := .binary32) bits.toBitVec
  have hsign := ofBitVec_unpackSign bits
  have hfraction := toNat_unpackMantissa bits
  rw [value_ofBits]
  simp only [unpack, if_neg hall] at hregular ⊢
  by_cases hzero : @unpackExponent .binary32 bits.toBitVec = 0#_
  · have hfield : bits.toNat / 2 ^ 23 % 2 ^ 8 = 0 := (unpackExponent_eq_iff bits _).mp hzero
    rw [if_pos hzero] at hregular ⊢
    by_cases hmantissa : @unpackMantissa .binary32 bits.toBitVec = 0#_
    · rw [dif_pos hmantissa]
      refine ⟨_, 0, rfl, floatUnits_eq bits hsign ?_⟩
      rw [if_pos hfield, ← hfraction, hmantissa]
      rfl
    · rw [dif_neg hmantissa] at hregular ⊢
      obtain ⟨mag, hvalue, hunits⟩ := exists_magnitude (n := 0) _ hregular (by
        rw [toNat_unpackExponent, hfield]
        rfl)
      refine ⟨_, mag, hvalue, floatUnits_eq bits hsign ?_⟩
      rw [hunits, hfraction, if_pos hfield]
      simp
  · have hfield : bits.toNat / 2 ^ 23 % 2 ^ 8 ≠ 0 := fun heq => hzero ((unpackExponent_eq_iff bits _).mpr heq)
    rw [if_neg hzero] at hregular ⊢
    obtain ⟨mag, hvalue, hunits⟩ := exists_magnitude (n := bits.toNat / 2 ^ 23 % 2 ^ 8 - 1) _ hregular (by
      rw [toNat_unpackExponent]
      change ((bits.toNat / 2 ^ 23 % 2 ^ 8 : ℕ) : ℤ) - (127 + 23) - (-149) = _
      omega)
    refine ⟨_, mag, hvalue, floatUnits_eq bits hsign ?_⟩
    rw [hunits, if_neg hfield, Ieee.toNat_unpackMantissa, hfraction]
    simp [Nat.add_comm]

theorem value_of_isNaN {bits : UInt32} (h : IsNaN bits) : Ieee.value (Float32.ofBits bits) = .nan := by
  have hall : @unpackExponent .binary32 bits.toBitVec = -1#_ :=
    (unpackExponent_eq_iff bits _).mpr h.1
  have hmantissa : @unpackMantissa .binary32 bits.toBitVec ≠ 0#_ := by
    intro heq
    have hnat := congrArg BitVec.toNat heq
    rw [toNat_unpackMantissa] at hnat
    exact h.2 hnat
  rw [value_ofBits]
  simp only [unpack, if_pos hall, if_neg hmantissa]
  rfl

theorem value_of_isInfinite {bits : UInt32} (h : IsInfinite bits) :
    Ieee.value (Float32.ofBits bits) = .inf (decide (bits.toNat / 2 ^ 31 ≠ 0)) := by
  have hall : @unpackExponent .binary32 bits.toBitVec = -1#_ :=
    (unpackExponent_eq_iff bits _).mpr h.1
  have hmantissa : @unpackMantissa .binary32 bits.toBitVec = 0#_ := by
    apply BitVec.eq_of_toNat_eq
    rw [toNat_unpackMantissa]
    exact h.2
  rw [value_ofBits]
  simp only [unpack, if_pos hall, if_pos hmantissa, Ieee.ofUnpacked, ofBitVec_unpackSign]
  by_cases hpos : bits.toNat / 2 ^ 31 = 0
  · rw [if_pos hpos, decide_eq_false (not_not.mpr hpos)]
    rfl
  · rw [if_neg hpos, decide_eq_true hpos]
    rfl

/-- Half of the least positive float is the square of `2^-75`. -/
theorem sq_underflows_iff (n : ℕ) : n * n * 2 ≤ Ieee.one .binary32 ↔ n ≤ 2 ^ 74 := by
  have hpow : 2 ^ 74 * 2 ^ 74 * 2 = Ieee.one .binary32 := by
    rw [Ieee.one_binary32, ← pow_add, ← pow_succ]
  constructor
  · intro hle
    by_contra hlarge
    have hmul := Nat.mul_self_lt_mul_self (not_le.mp hlarge)
    omega
  · intro hle
    have hmul := Nat.mul_self_le_mul_self hle
    omega

theorem bits_cases (bits : UInt32) : IsNaN bits ∨ IsInfinite bits ∨ IsFinite bits := by
  unfold IsNaN IsInfinite IsFinite
  omega

theorem value_eq_nan_iff (bits : UInt32) : Ieee.value (Float32.ofBits bits) = .nan ↔ IsNaN bits := by
  obtain h | h | h := bits_cases bits
  · simp [value_of_isNaN h, h]
  · have hnot : ¬ IsNaN bits := fun hnan => hnan.2 h.2
    simp [value_of_isInfinite h, hnot]
  · obtain ⟨s, mag, hvalue, -⟩ := value_of_isFinite h
    have hnot : ¬ IsNaN bits := fun hnan => h hnan.1
    simp [hvalue, hnot]

theorem value_eq_inf_iff (bits : UInt32) (s : Bool) :
    Ieee.value (Float32.ofBits bits) = .inf s ↔ IsInfinite bits ∧ s = decide (bits.toNat / 2 ^ 31 ≠ 0) := by
  obtain h | h | h := bits_cases bits
  · have hnot : ¬ IsInfinite bits := fun hinf => h.2 hinf.2
    simp [value_of_isNaN h, hnot]
  · rw [value_of_isInfinite h, Ieee.Value.inf.injEq]
    exact ⟨fun heq => ⟨h, heq.symm⟩, fun hboth => hboth.2.symm⟩
  · obtain ⟨t, mag, hvalue, -⟩ := value_of_isFinite h
    have hnot : ¬ IsInfinite bits := fun hinf => h hinf.1
    simp [hvalue, hnot]

end Fields

end ToyVdb
