import ToyVdb.Lib.FloatOps

/-!
# Single precision

The values of the built-in single precision floats, and the built-in operations on them.
-/

namespace Ieee

open Float.Model (Format UnpackedFloat)
open Float.Model.UnpackedFloat

/-- The value of a single precision float. -/
noncomputable def value (x : Float32) : Value .binary32 := ofUnpacked .binary32 x.toModel.unpack

theorem regular (x : Float32) : Regular .binary32 x.toModel.unpack := unpack_regular _

theorem value_pack {u : UnpackedFloat} (h : Canonical .binary32 u) :
    value (.ofModel (.pack u)) = ofUnpacked .binary32 u :=
  unpack_pack (by decide) h

theorem value_injective : Function.Injective value := by
  intro x y h
  have hunpack := ofUnpacked_inj (regular x) (regular y) h
  obtain ⟨⟨bits, hvalid⟩⟩ := x
  obtain ⟨⟨bits', hvalid'⟩⟩ := y
  have hpack : UnpackedFloat.pack .binary32 (unpack .binary32 bits.toBitVec) =
      UnpackedFloat.pack .binary32 (unpack .binary32 bits'.toBitVec) := congrArg _ hunpack
  rw [pack_unpack (by decide) hvalid, pack_unpack (by decide) hvalid'] at hpack
  obtain rfl := UInt32.eq_of_toBitVec_eq hpack
  rfl

@[simp]
theorem value_add (x y : Float32) : value (x + y) = (value x).add (value y) := by
  obtain ⟨hvalue, hcanon⟩ := add_value (regular x) (regular y)
  exact (value_pack hcanon).trans hvalue

@[simp]
theorem value_sub (x y : Float32) : value (x - y) = (value x).sub (value y) := by
  obtain ⟨hvalue, hcanon⟩ := sub_value (regular x) (regular y)
  exact (value_pack hcanon).trans hvalue

@[simp]
theorem value_mul (x y : Float32) : value (x * y) = (value x).mul (value y) := by
  obtain ⟨hvalue, hcanon⟩ := mul_value (regular x) (regular y)
  exact (value_pack hcanon).trans hvalue

@[simp]
theorem value_div (x y : Float32) : value (x / y) = (value x).div (value y) := by
  obtain ⟨hvalue, hcanon⟩ := div_value (regular x) (regular y)
  exact (value_pack hcanon).trans hvalue

@[simp]
theorem value_neg (x : Float32) : value (-x) = (value x).neg := by
  obtain ⟨hvalue, hregular⟩ := neg_value (regular x)
  exact (value_pack hregular.canonical).trans hvalue

@[simp]
theorem value_sqrt (x : Float32) : value x.sqrt = (value x).sqrt := by
  obtain ⟨hvalue, hcanon⟩ := sqrt_value (regular x)
  exact (value_pack hcanon).trans hvalue

theorem compare_eq_none {a b : UnpackedFloat} (h : a = .notANumber ∨ b = .notANumber) : a.compare b = none := by
  obtain rfl | rfl := h
  · rfl
  · cases a <;> rfl

theorem eq_notANumber_iff {u : UnpackedFloat} {F : Format} : ofUnpacked F u = .nan ↔ u = .notANumber := by
  cases u <;> simp [ofUnpacked, Value.rounded_ne_nan]

theorem compare_iff {u v : UnpackedFloat} {F : Format} (hu : Regular F u) (hv : Regular F v)
    (o : Ordering) :
    u.compare v = some o ↔ ofUnpacked F u ≠ .nan ∧ ofUnpacked F v ≠ .nan ∧
      compare (ofUnpacked F u).key (ofUnpacked F v).key = o := by
  by_cases hnan : u = .notANumber ∨ v = .notANumber
  · rw [compare_eq_none hnan]
    rw [← eq_notANumber_iff (F := F), ← eq_notANumber_iff (u := v) (F := F)] at hnan
    simp only [reduceCtorEq, false_iff]
    exact fun h => hnan.elim h.1 h.2.1
  · rw [← eq_notANumber_iff (F := F), ← eq_notANumber_iff (u := v) (F := F), not_or] at hnan
    rw [compare_value hu hv hnan.1 hnan.2, Option.some_inj]
    exact ⟨fun h => ⟨hnan.1, hnan.2, h⟩, fun h => h.2.2⟩

theorem isNaN_iff (x : Float32) : x.isNaN = true ↔ value x = .nan := by
  rw [value, eq_notANumber_iff]
  change x.toModel.unpack.isNaN = true ↔ _
  cases x.toModel.unpack <;> simp [UnpackedFloat.isNaN]

theorem lt_iff (x y : Float32) : x < y ↔ (value x).lt (value y) := by
  change decide (x.toModel < y.toModel) = true ↔ _
  rw [decide_eq_true_iff]
  change (x.toModel.unpack.compare y.toModel.unpack == some .lt) = true ↔ _
  rw [beq_iff_eq, compare_iff (regular x) (regular y), Int.compare_eq_lt]
  rfl

theorem beq_iff (x y : Float32) : (x == y) = true ↔ (value x).beq (value y) := by
  change (x.toModel.unpack.compare y.toModel.unpack == some .eq) = true ↔ _
  rw [beq_iff_eq, compare_iff (regular x) (regular y), Int.compare_eq_eq]
  rfl

theorem value_zero : value 0 = .fin false 0 := rfl

theorem value_one : value 1 = .fin false 1 := by
  have h : (1 : Float32).toModel.unpack = .finite .positive (2 ^ 23) (-23) (by decide) := rfl
  have hone : ((2 ^ 23 : ℕ) : ℝ) * ulp .binary32 (-23) = (1 : Magnitude .binary32).units := by
    have hexponent : -Format.binary32.minExponent = -23 - Format.binary32.minExponent + 23 := rfl
    rw [units_one, ← ulp_zero, ulp_eq, ulp_eq, zero_sub, hexponent, zpow_add₀ two_ne_zero]
    norm_num
    ring
  rw [value, h, ofUnpacked, hone, Value.rounded_units]
  rfl

/-- The number a float stands for; an infinity counts as the next power of two after the largest float. -/
noncomputable def toReal (x : Float32) : ℝ := (value x).key / one .binary32

theorem one_binary32 : one .binary32 = 2 ^ 149 := rfl

theorem isInf_iff (x : Float32) : x.isInf = true ↔ ∃ s, value x = .inf s := by
  have hregular := regular x
  have hisInf : x.isInf = x.toModel.unpack.isInf := rfl
  rw [value, hisInf]
  cases hu : x.toModel.unpack with
  | notANumber => simp [UnpackedFloat.isInf, ofUnpacked]
  | infinity s => simp [UnpackedFloat.isInf, ofUnpacked]
  | zero s => simp [UnpackedFloat.isInf, ofUnpacked]
  | finite s m e hm =>
      rw [hu] at hregular
      obtain ⟨mag, hvalue, -⟩ := hregular.magnitude
      simp [UnpackedFloat.isInf, hvalue]

end Ieee
