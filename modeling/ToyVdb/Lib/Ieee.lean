import ToyVdb.Lib.Rounding

/-!
# Floating-point values

What the bit patterns of an IEEE format stand for: a signed magnitude, counted in units of the least positive
value, or an infinity, or no number. The operations are the standard's: the exact result, rounded to the nearest
magnitude of the format, to the even one on a tie, and infinite where that is too large.
-/

namespace Ieee

open Float.Model (Format)

/-! ### Formats -/

/-- The number of units in one. -/
def one (F : Format) : ℕ := 2 ^ (2 ^ (F.exponentBits - 1) + F.mantissaBits - 3)

/-- Finite magnitudes are below this many units. -/
def top (F : Format) : ℕ := 2 ^ (2 ^ F.exponentBits + F.mantissaBits - 3)

theorem mantissaBits_pos (F : Format) : 0 < F.mantissaBits := by
  simp [Format.mantissaBits]

theorem two_le_mantissaBits (F : Format) : 2 ≤ F.mantissaBits := by
  have hm := F.hm
  simp only [Format.mantissaBits]
  omega

theorem one_pos (F : Format) : 0 < one F := Nat.two_pow_pos _

theorem top_pos (F : Format) : 0 < top F := Nat.two_pow_pos _

theorem one_lt_top (F : Format) : one F < top F := by
  have hbits := two_le_mantissaBits F
  have hexponent : 2 ^ (F.exponentBits - 1) < 2 ^ F.exponentBits :=
    Nat.pow_lt_pow_right one_lt_two (Nat.sub_lt F.he Nat.one_pos)
  have hpos := Nat.two_pow_pos (F.exponentBits - 1)
  exact Nat.pow_lt_pow_right one_lt_two (by omega)

/-- A finite magnitude, in units. -/
@[ext]
structure Magnitude (F : Format) where
  units : ℕ
  fits : Rounding.Fits F.mantissaBits units
  lt_top : units < top F
deriving DecidableEq

inductive Value (F : Format)
  | nan
  | inf (neg : Bool)
  | fin (neg : Bool) (mag : Magnitude F)
deriving DecidableEq

variable {F : Format}

instance : Zero (Magnitude F) := ⟨⟨0, dvd_zero _, top_pos F⟩⟩

instance : One (Magnitude F) := ⟨⟨one F, Rounding.fits_two_pow (mantissaBits_pos F) _, one_lt_top F⟩⟩

@[simp]
theorem units_zero : (0 : Magnitude F).units = 0 := rfl

@[simp]
theorem units_one : (1 : Magnitude F).units = one F := rfl

theorem Magnitude.eq_zero_iff {m : Magnitude F} : m = 0 ↔ m.units = 0 := Magnitude.ext_iff

/-! ### Rounding -/

namespace Value

/-- The value nearest to a magnitude, which is not negative. -/
noncomputable def rounded (F : Format) (neg : Bool) (x : ℝ) : Value F :=
  if h : Rounding.round F.mantissaBits x < top F then
    .fin neg ⟨Rounding.round F.mantissaBits x, Rounding.round_fits (mantissaBits_pos F) x, h⟩
  else .inf neg

/-- The units a finite value stands for. -/
def signed (neg : Bool) (m : Magnitude F) : ℤ := if neg then -(m.units : ℤ) else m.units

@[simp]
theorem rounded_zero (neg : Bool) : rounded F neg 0 = .fin neg 0 := by
  simp only [rounded, Rounding.round_zero, dif_pos (top_pos F)]
  rfl

theorem rounded_of_fits (neg : Bool) {n : ℕ} (hfits : Rounding.Fits F.mantissaBits n) (hlt : n < top F) :
    rounded F neg n = .fin neg ⟨n, hfits, hlt⟩ := by
  simp only [rounded, Rounding.round_eq_self hfits, dif_pos hlt]

theorem rounded_of_top_le (neg : Bool) {n : ℕ} (hfits : Rounding.Fits F.mantissaBits n)
    (hle : top F ≤ n) : rounded F neg n = .inf neg := by
  simp only [rounded, Rounding.round_eq_self hfits, dif_neg (not_lt.mpr hle)]

@[simp]
theorem rounded_units (neg : Bool) (m : Magnitude F) : rounded F neg m.units = .fin neg m :=
  rounded_of_fits neg m.fits m.lt_top

@[simp]
theorem rounded_round (neg : Bool) (x : ℝ) :
    rounded F neg (Rounding.round F.mantissaBits x) = rounded F neg x := by
  have h := Rounding.round_eq_self (Rounding.round_fits (mantissaBits_pos F) x)
  simp only [rounded, h]

theorem rounded_ne_nan (neg : Bool) (x : ℝ) : rounded F neg x ≠ nan := by
  unfold rounded
  split <;> simp

/-! ### Operations -/

def neg : Value F → Value F
  | nan => nan
  | inf s => inf !s
  | fin s m => fin (!s) m

/-- A sum of zero is negative only if both operands are. -/
noncomputable def add : Value F → Value F → Value F
  | nan, _ => nan
  | _, nan => nan
  | inf s, inf t => if s = t then inf s else nan
  | inf s, fin _ _ => inf s
  | fin _ _, inf t => inf t
  | fin s x, fin t y =>
    let sum := signed s x + signed t y
    if sum = 0 then fin (s && t) 0 else rounded F (decide (sum < 0)) (sum.natAbs : ℝ)

noncomputable def sub (a b : Value F) : Value F := add a (neg b)

noncomputable def mul : Value F → Value F → Value F
  | nan, _ => nan
  | _, nan => nan
  | inf s, inf t => inf (s != t)
  | inf s, fin t y => if y = 0 then nan else inf (s != t)
  | fin s x, inf t => if x = 0 then nan else inf (s != t)
  | fin s x, fin t y => rounded F (s != t) (x.units * y.units / one F)

noncomputable def div : Value F → Value F → Value F
  | nan, _ => nan
  | _, nan => nan
  | inf _, inf _ => nan
  | inf s, fin t _ => inf (s != t)
  | fin s _, inf t => fin (s != t) 0
  | fin s x, fin t y =>
    if y = 0 then if x = 0 then nan else inf (s != t)
    else rounded F (s != t) (x.units * one F / y.units)

noncomputable def sqrt : Value F → Value F
  | nan => nan
  | inf s => if s then nan else inf false
  | fin s x => if x = 0 then fin s 0 else if s then nan else rounded F false √(x.units * one F)

/-! ### Order -/

/-- The place of a value that is a number in their order, where both zeros are at the same one. -/
def key : Value F → ℤ
  | nan => 0
  | inf s => if s then -(top F : ℤ) else top F
  | fin s m => signed s m

/-- No comparison holds of what is not a number. -/
def lt (a b : Value F) : Prop := a ≠ nan ∧ b ≠ nan ∧ key a < key b

instance : DecidableRel (@lt F) := fun _ _ => inferInstanceAs (Decidable (_ ∧ _ ∧ _))

def beq (a b : Value F) : Prop := a ≠ nan ∧ b ≠ nan ∧ key a = key b

instance : DecidableRel (@beq F) := fun _ _ => inferInstanceAs (Decidable (_ ∧ _ ∧ _))

/-! ### Small facts -/

theorem signed_ne_zero {mag : Magnitude F} (h : mag ≠ 0) (s : Bool) : signed s mag ≠ 0 := by
  rw [Ne, Magnitude.eq_zero_iff] at h
  cases s <;> simpa [signed] using h

@[simp]
theorem signed_zero (s : Bool) : signed s (0 : Magnitude F) = 0 := by
  cases s <;> simp [signed]

@[simp]
theorem natAbs_signed (s : Bool) (m : Magnitude F) : (signed s m).natAbs = m.units := by
  cases s <;> simp [signed]

theorem rounded_signed {mag : Magnitude F} (h : mag ≠ 0) (s : Bool) :
    rounded F (decide (signed s mag < 0)) (signed s mag).natAbs = fin s mag := by
  rw [Ne, Magnitude.eq_zero_iff] at h
  cases s with
  | false => simp [signed]
  | true => simp [signed, Nat.pos_of_ne_zero h]

theorem add_comm (a b : Value F) : add a b = add b a := by
  cases a <;> cases b <;> simp only [add, Int.add_comm, Bool.and_comm]
  split_ifs <;> simp_all

theorem add_fin_zero {mag : Magnitude F} (h : mag ≠ 0) (s t : Bool) :
    add (fin s mag) (fin t 0) = fin s mag := by
  simp only [add, signed_zero, Int.add_zero]
  rw [if_neg (signed_ne_zero h s)]
  exact rounded_signed h s

theorem mul_comm (a b : Value F) : mul a b = mul b a := by
  cases a <;> cases b <;> simp only [mul, bne_comm, CommMagma.mul_comm]

end Value

end Ieee
