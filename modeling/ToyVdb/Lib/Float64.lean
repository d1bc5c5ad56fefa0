import ToyVdb.Lib.Float32

/-!
# Double precision

The values of the built-in double precision floats, and the conversions between the two precisions, which keep what
is exact and otherwise round.
-/

namespace Ieee

open Float.Model (Format UnpackedFloat)
open Float.Model.UnpackedFloat

/-! ### Operations -/

/-- The value of a double precision float. -/
noncomputable def value64 (x : Float) : Value .binary64 := ofUnpacked .binary64 x.toModel.unpack

theorem regular64 (x : Float) : Regular .binary64 x.toModel.unpack := unpack_regular _

theorem value64_pack {u : UnpackedFloat} (h : Canonical .binary64 u) :
    value64 (.ofModel (.pack u)) = ofUnpacked .binary64 u :=
  unpack_pack (by decide) h

@[simp]
theorem value64_add (x y : Float) : value64 (x + y) = (value64 x).add (value64 y) := by
  obtain ⟨hvalue, hcanon⟩ := add_value (regular64 x) (regular64 y)
  exact (value64_pack hcanon).trans hvalue

@[simp]
theorem value64_mul (x y : Float) : value64 (x * y) = (value64 x).mul (value64 y) := by
  obtain ⟨hvalue, hcanon⟩ := mul_value (regular64 x) (regular64 y)
  exact (value64_pack hcanon).trans hvalue

@[simp]
theorem value64_div (x y : Float) : value64 (x / y) = (value64 x).div (value64 y) := by
  obtain ⟨hvalue, hcanon⟩ := div_value (regular64 x) (regular64 y)
  exact (value64_pack hcanon).trans hvalue

@[simp]
theorem value64_sqrt (x : Float) : value64 x.sqrt = (value64 x).sqrt := by
  obtain ⟨hvalue, hcanon⟩ := sqrt_value (regular64 x)
  exact (value64_pack hcanon).trans hvalue

theorem lt64_iff (x y : Float) : x < y ↔ (value64 x).lt (value64 y) := by
  change decide (x.toModel < y.toModel) = true ↔ _
  rw [decide_eq_true_iff]
  change (x.toModel.unpack.compare y.toModel.unpack == some .lt) = true ↔ _
  rw [beq_iff_eq, compare_iff (regular64 x) (regular64 y), Int.compare_eq_lt]
  rfl

theorem value64_zero : value64 0 = .fin false 0 := rfl

theorem ulp_div_one (F : Format) (e : ℤ) : ulp F e / one F = 2 ^ e := by
  rw [← ulp_zero, ulp_eq, ulp_eq, ← zpow_sub₀ two_ne_zero]
  congr 1
  ring

theorem value64_one : value64 1 = .fin false 1 := by
  have h : (1 : Float).toModel.unpack = .finite .positive (2 ^ 52) (-52) (by decide) := rfl
  have hone : ((2 ^ 52 : ℕ) : ℝ) * ulp .binary64 (-52) = (1 : Magnitude .binary64).units := by
    have hpos : (one .binary64 : ℝ) ≠ 0 := by exact_mod_cast (one_pos .binary64).ne'
    rw [units_one, ← div_left_inj' hpos, mul_div_assoc, ulp_div_one, div_self hpos]
    norm_num
  rw [value64, h, ofUnpacked, hone, Value.rounded_units]
  rfl

/-! ### Conversions -/

/-- A float in another format. -/
def convert (F : Format) : UnpackedFloat → UnpackedFloat
  | .finite s m e _ => .round F s m e
  | u => u

/-- `static_cast<double>`. -/
def widen (x : Float32) : Float := .ofModel (.pack (convert .binary64 x.toModel.unpack))

/-- `static_cast<float>`. -/
def narrow (x : Float) : Float32 := .ofModel (.pack (convert .binary32 x.toModel.unpack))

namespace Value

/-- The nearest value of another format. -/
noncomputable def convert {F : Format} (G : Format) : Value F → Value G
  | nan => nan
  | inf s => inf s
  | fin s m => rounded G s (m.units / one F * one G)

end Value

theorem convert_value {F G : Format} {u : UnpackedFloat} (h : Regular F u) :
    ofUnpacked G (convert G u) = (ofUnpacked F u).convert G ∧ Canonical G (convert G u) := by
  cases u with
  | notANumber => exact ⟨rfl, trivial⟩
  | infinity s => exact ⟨rfl, trivial⟩
  | zero s =>
      refine ⟨?_, trivial⟩
      simp [convert, ofUnpacked, Value.convert]
  | finite s m e hm =>
      obtain ⟨mag, hvalue, hunits, -⟩ := h.magnitude
      obtain ⟨hround, hcanon⟩ := round_value (F := G) hm.ne' s e
      refine ⟨?_, hcanon⟩
      have hpos : (one G : ℝ) ≠ 0 := by exact_mod_cast (one_pos G).ne'
      have hscaled : (mag.units : ℝ) / one F * one G = m * ulp G e := by
        rw [hunits, mul_div_assoc, ulp_div_one, ← ulp_div_one G, ← mul_div_assoc, div_mul_cancel₀ _ hpos]
      rw [hvalue, Value.convert, hscaled]
      exact hround

theorem value64_widen (x : Float32) : value64 (widen x) = (value x).convert .binary64 := by
  obtain ⟨hvalue, hcanon⟩ := convert_value (G := .binary64) (regular x)
  exact (value64_pack hcanon).trans hvalue

theorem value_narrow (x : Float) : value (narrow x) = (value64 x).convert .binary32 := by
  obtain ⟨hvalue, hcanon⟩ := convert_value (G := .binary32) (regular64 x)
  exact (value_pack hcanon).trans hvalue

end Ieee
