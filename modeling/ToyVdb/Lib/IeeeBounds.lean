import ToyVdb.Lib.IeeeSums

/-!
# Bounded magnitudes

How large results can become. A running sum stops growing: once it has reached `2 ^ p` times the largest term, `p`
being the bits of the significand, a further term is at most half of the last place and is rounded away, so no
sum of any length exceeds that.
-/

namespace Ieee

open Float.Model (Format)

variable {F : Format}

namespace Value

/-- Finite, and of at most so many units. -/
def Within (bound : ℕ) (a : Value F) : Prop := ∃ s m, a = fin s m ∧ m.units ≤ bound

theorem Within.ne_nan {bound : ℕ} {a : Value F} (h : Within bound a) : a ≠ nan := by
  obtain ⟨s, m, rfl, -⟩ := h
  simp

theorem within_zero (bound : ℕ) (s : Bool) : Within bound (fin s 0 : Value F) := ⟨s, 0, rfl, Nat.zero_le _⟩

theorem rounded_within {bound : ℕ} (hfits : Rounding.Fits F.mantissaBits bound) (hlt : bound < top F)
    (s : Bool) {x : ℝ} (hx : x ≤ bound) : ∃ m : Magnitude F, rounded F s x = fin s m ∧ m.units ≤ bound := by
  have hround := Rounding.round_le_of_fits (mantissaBits_pos F) hfits hx
  refine ⟨⟨_, Rounding.round_fits (mantissaBits_pos F) x, hround.trans_lt hlt⟩, ?_, hround⟩
  exact dif_pos (hround.trans_lt hlt)

theorem mul_within {x y bound : ℕ} {a b : Value F} (ha : Within x a) (hb : Within y b)
    (hfits : Rounding.Fits F.mantissaBits bound) (hlt : bound < top F) (hle : x * y ≤ bound * one F) :
    Within bound (mul a b) := by
  obtain ⟨s, m, rfl, hm⟩ := ha
  obtain ⟨t, n, rfl, hn⟩ := hb
  have hone : (0 : ℝ) < one F := by exact_mod_cast one_pos F
  have hprod : (m.units : ℝ) * n.units ≤ bound * one F := by
    exact_mod_cast (Nat.mul_le_mul hm hn).trans hle
  exact ⟨_, rounded_within hfits hlt _ ((div_le_iff₀ hone).mpr hprod)⟩

/-- A sum that has reached `2 ^ p` times the size of its terms stays there. -/
theorem add_within {j : ℕ} {a b : Value F} (ha : Within (2 ^ (j + F.mantissaBits)) a) (hb : Within (2 ^ j) b)
    (hlt : 2 ^ (j + F.mantissaBits) < top F) : Within (2 ^ (j + F.mantissaBits)) (add a b) := by
  obtain ⟨s, m, rfl, hm⟩ := ha
  obtain ⟨t, n, rfl, hn⟩ := hb
  have hsum : (signed s m + signed t n).natAbs ≤ 2 ^ (j + F.mantissaBits) + 2 ^ j := by
    have habs := Int.natAbs_add_le (signed s m) (signed t n)
    rw [natAbs_signed, natAbs_signed] at habs
    omega
  have hround : Rounding.round F.mantissaBits (signed s m + signed t n).natAbs ≤ 2 ^ (j + F.mantissaBits) := by
    rw [← Rounding.round_two_pow_add (two_le_mantissaBits F) j]
    exact Rounding.round_mono (mantissaBits_pos F) (by exact_mod_cast hsum)
  simp only [add]
  split
  · exact within_zero _ _
  · rw [← rounded_round]
    exact ⟨_, rounded_within (Rounding.fits_two_pow (mantissaBits_pos F) _) hlt _ (by exact_mod_cast hround)⟩

theorem foldl_add_within {α : Type} {j : ℕ} (term : α → Value F) (items : List α)
    (hlt : 2 ^ (j + F.mantissaBits) < top F) (hterms : ∀ item ∈ items, Within (2 ^ j) (term item)) :
    Within (2 ^ (j + F.mantissaBits)) (items.foldl (fun sum item => sum.add (term item)) (fin false 0)) := by
  induction items using List.reverseRecOn with
  | nil => exact within_zero _ _
  | append_singleton items item ih =>
      have hitems : ∀ i ∈ items, Within (2 ^ j) (term i) := fun i hi => hterms i (List.mem_append_left _ hi)
      rw [List.foldl_append, List.foldl_cons, List.foldl_nil]
      exact add_within (ih hitems) (hterms item (List.mem_append_right _ List.mem_cons_self)) hlt

theorem sqrt_within {x bound : ℕ} {a : Value F} (ha : Within x a) (hsign : abs a = a)
    (hfits : Rounding.Fits F.mantissaBits bound) (hlt : bound < top F) (hle : x * one F ≤ bound * bound) :
    Within bound (sqrt a) := by
  obtain ⟨s, m, rfl, hm⟩ := ha
  cases s with
  | true => cases hsign
  | false =>
      simp only [sqrt]
      split
      · exact within_zero _ _
      · rw [if_neg (by simp)]
        have hle' : m.units * one F ≤ bound * bound := (Nat.mul_le_mul_right _ hm).trans hle
        refine ⟨_, rounded_within hfits hlt _ (Real.sqrt_le_iff.mpr ⟨Nat.cast_nonneg _, ?_⟩)⟩
        rw [sq]
        exact_mod_cast hle'

theorem div_ne_nan {x y : ℕ} {a b : Value F} (ha : Within x a) (hb : Within y b) (hne : key b ≠ 0) :
    div a b ≠ nan := by
  obtain ⟨s, m, rfl, -⟩ := ha
  obtain ⟨t, n, rfl, -⟩ := hb
  have hn : n ≠ 0 := by
    intro hzero
    rw [hzero] at hne
    exact hne (signed_zero t)
  simp only [div, if_neg hn]
  exact rounded_ne_nan _ _

theorem within_of_key {a : Value F} {bound : ℕ} (hne : a ≠ nan) (hbound : bound < top F)
    (hlow : -(bound : ℤ) ≤ key a) (hhigh : key a ≤ bound) : Within bound a := by
  cases a with
  | nan => exact absurd rfl hne
  | inf s => cases s <;> simp only [key] at hlow hhigh <;> norm_num at hlow hhigh <;> omega
  | fin s m =>
      refine ⟨s, m, rfl, ?_⟩
      cases s <;> simp only [key, signed] at hlow hhigh <;> norm_num at hlow hhigh <;> omega

theorem one_sub_within {a : Value F} {bound : ℕ} (h : Within (one F) a)
    (hfits : Rounding.Fits F.mantissaBits bound) (hlt : bound < top F) (hle : (one F : ℤ) - key a ≤ bound) :
    ∃ m : Magnitude F, sub (fin false 1) a = fin false m ∧ m.units ≤ bound := by
  obtain ⟨s, m, rfl, hm⟩ := h
  have hdiff : signed false (1 : Magnitude F) + signed (!s) m = one F - signed s m := by
    rw [signed_not]
    rfl
  have hnonneg : 0 ≤ (one F : ℤ) - signed s m := by
    cases s <;> simp only [signed] <;> norm_num <;> omega
  obtain ⟨d, hd⟩ := Int.eq_ofNat_of_zero_le hnonneg
  rw [key, hd] at hle
  simp only [sub, neg, add, hdiff, hd]
  split
  · exact ⟨0, rfl, Nat.zero_le _⟩
  · rw [decide_eq_false (by omega), Int.natAbs_natCast]
    exact rounded_within hfits hlt _ (by exact_mod_cast hle)

end Value

/-! ### The square of a root -/

section Roots

variable {m : ℕ}

theorem roundoff_le (hbits : 5 ≤ F.mantissaBits) : roundoff F ≤ 1 / 32 := by
  rw [roundoff_eq]
  have hpow : (2 : ℝ) ^ 5 ≤ 2 ^ F.mantissaBits := pow_le_pow_right₀ one_le_two hbits
  exact one_div_le_one_div_of_le (by norm_num) (by linarith)

/-- Roots are large, so the error of one is relative. -/
theorem round_sqrt_bounds (hm : 0 < m) (hone : 2 ^ (2 * F.mantissaBits) ≤ one F) :
    (1 - roundoff F) * √(m * one F) ≤ Rounding.round F.mantissaBits √(m * one F) ∧
      Rounding.round F.mantissaBits √(m * one F) ≤ (1 + roundoff F) * √(m * one F) := by
  have hle : (2 ^ F.mantissaBits : ℝ) ^ 2 ≤ m * one F := by
    rw [← pow_mul, mul_comm F.mantissaBits]
    exact_mod_cast hone.trans (Nat.le_mul_of_pos_left _ hm)
  exact round_bounds_of_le (Real.le_sqrt_of_sq_le hle)

theorem square_root_bounds (hm : 0 < m) (hone : 2 ^ (2 * F.mantissaBits) ≤ one F) {r : ℕ}
    (hr : r = Rounding.round F.mantissaBits √(m * one F)) :
    (1 - roundoff F) ^ 2 * m ≤ r * r / one F ∧ r * r / one F ≤ (1 + roundoff F) ^ 2 * m := by
  obtain ⟨hlow, hhigh⟩ := round_sqrt_bounds hm hone
  rw [← hr] at hlow hhigh
  have hu := roundoff_pos F
  have hu' := roundoff_le_one F
  have hone0 : (0 : ℝ) < one F := by exact_mod_cast one_pos F
  have hsqrt : √(m * one F) * √(m * one F) = m * one F := Real.mul_self_sqrt (by positivity)
  have hsqrt0 := Real.sqrt_nonneg (m * one F)
  constructor
  · rw [le_div_iff₀ hone0]
    have h := mul_self_le_mul_self (mul_nonneg (by linarith) hsqrt0) hlow
    calc (1 - roundoff F) ^ 2 * m * one F = (1 - roundoff F) ^ 2 * (√(m * one F) * √(m * one F)) := by
          rw [hsqrt]
          ring
      _ = (1 - roundoff F) * √(m * one F) * ((1 - roundoff F) * √(m * one F)) := by ring
      _ ≤ r * r := h
  · rw [div_le_iff₀ hone0]
    have h := mul_self_le_mul_self (Nat.cast_nonneg r) hhigh
    calc (r * r : ℝ) ≤ (1 + roundoff F) * √(m * one F) * ((1 + roundoff F) * √(m * one F)) := h
      _ = (1 + roundoff F) ^ 2 * (√(m * one F) * √(m * one F)) := by ring
      _ = (1 + roundoff F) ^ 2 * m * one F := by
          rw [hsqrt]
          ring

/-- A magnitude comes back from its root but for a few roundings; the smallest come back exactly. -/
theorem round_square_root_bounds (hm : 0 < m) (hone : 2 ^ (2 * F.mantissaBits) ≤ one F)
    (hbits : 5 ≤ F.mantissaBits) {r : ℕ} (hr : r = Rounding.round F.mantissaBits √(m * one F)) :
    0 < Rounding.round F.mantissaBits (r * r / one F) ∧
      Rounding.round F.mantissaBits (r * r / one F) ≤ (1 + 7 * roundoff F) * m := by
  obtain ⟨hlow, hhigh⟩ := square_root_bounds hm hone hr
  obtain ⟨y, hy⟩ : ∃ y : ℝ, y = r * r / one F := ⟨_, rfl⟩
  rw [← hy] at hlow hhigh ⊢
  have hu := roundoff_pos F
  have hu' := roundoff_le hbits
  have hm' : (1 : ℝ) ≤ m := by exact_mod_cast hm
  have hy0 : 0 ≤ y := le_trans (by positivity) hlow
  have hmu : 0 ≤ roundoff F * m := by positivity
  have hsq : roundoff F ^ 2 * m ≤ roundoff F * m / 32 := by nlinarith
  have hyhigh : y ≤ m + 2 * (roundoff F * m) + roundoff F * m / 32 := by linarith
  have hylow : m - 2 * (roundoff F * m) ≤ y := by
    have hsq0 : 0 ≤ roundoff F ^ 2 * m := by positivity
    linarith
  have herror : |(Rounding.round F.mantissaBits y : ℝ) - y| ≤ 1 / 2 ∨
      |(Rounding.round F.mantissaBits y : ℝ) - y| ≤ roundoff F * y := by
    have hunit : y / 2 ^ F.mantissaBits = roundoff F * y := by
      rw [roundoff_eq]
      ring
    rw [← hunit]
    exact Rounding.abs_round_sub_le (mantissaBits_pos F) hy0
  have hrelative : roundoff F * y ≤ 2 * (roundoff F * m) := by nlinarith
  by_cases hsmall : roundoff F * m < 1 / 8
  · have hnear : |(Rounding.round F.mantissaBits y : ℝ) - m| < 1 := by
      obtain h | h := herror <;> rw [abs_le] at h <;> rw [abs_lt] <;> constructor <;> linarith [h.1, h.2]
    have hsame : Rounding.round F.mantissaBits y = m := by
      have hint : |((Rounding.round F.mantissaBits y : ℤ) - (m : ℤ))| < 1 := by exact_mod_cast hnear
      have hzero := Int.abs_lt_one_iff.mp hint
      omega
    rw [hsame]
    exact ⟨hm, by linarith⟩
  · constructor
    · refine Rounding.le_round_of_fits (n := 1) (mantissaBits_pos F) (Rounding.fits_two_pow (mantissaBits_pos F) 0) ?_
      push_cast
      nlinarith
    · obtain h | h := herror <;> linarith [(abs_le.mp h).2]

/-- So what is divided by the square of its root is nearly one. -/
theorem le_round_div_square_root (hm : 0 < m) (hone : 2 ^ (2 * F.mantissaBits) ≤ one F)
    (hbits : 5 ≤ F.mantissaBits) {r n : ℕ} (hr : r = Rounding.round F.mantissaBits √(m * one F))
    (hn : n = Rounding.round F.mantissaBits (r * r / one F)) :
    (1 - 8 * roundoff F) * one F ≤ Rounding.round F.mantissaBits (m * one F / n) := by
  obtain ⟨hpos, hhigh⟩ := round_square_root_bounds hm hone hbits hr
  rw [← hn] at hpos hhigh
  have hu := roundoff_pos F
  have hu' := roundoff_le hbits
  have hn0 : (0 : ℝ) < n := by exact_mod_cast hpos
  have hone0 : (0 : ℝ) < one F := by exact_mod_cast one_pos F
  have hquotient : (1 - 7 * roundoff F) * one F ≤ m * one F / n := by
    rw [le_div_iff₀ hn0]
    have hmul : (1 - 7 * roundoff F) * n ≤ m := by
      have h := mul_le_mul_of_nonneg_left hhigh (show 0 ≤ 1 - 7 * roundoff F by linarith)
      have hsq : 0 ≤ roundoff F ^ 2 * m := by positivity
      linarith
    calc (1 - 7 * roundoff F) * one F * n = (1 - 7 * roundoff F) * n * one F := by ring
      _ ≤ m * one F := mul_le_mul_of_nonneg_right hmul hone0.le
  have hunits : 1 ≤ roundoff F ^ 2 * one F := by
    have hle : (2 : ℝ) ^ (2 * F.mantissaBits) ≤ one F := by exact_mod_cast hone
    rw [roundoff_eq, div_pow, one_pow, ← pow_mul, mul_comm F.mantissaBits, one_div_mul_eq_div,
      le_div_iff₀ (by positivity)]
    linarith
  refine le_trans ?_ (round_bounds (F := F) (by positivity)).1
  have hmul := mul_le_mul_of_nonneg_left hquotient (show 0 ≤ 1 - roundoff F by linarith)
  linarith

theorem Value.sqrt_capped (hm : 0 < m) (hfits : Rounding.Fits F.mantissaBits m) (hlt : m < top F) :
    sqrt (capped F m) = capped F (Rounding.round F.mantissaBits √(m * one F)) := by
  obtain ⟨mag, rfl, hmag⟩ := exists_capped hlt hfits
  rw [hmag, ← rounded_eq_capped]
  simp [sqrt, Magnitude.eq_zero_iff, hm.ne']

theorem Value.div_square_root (hm : 0 < m) (hfits : Rounding.Fits F.mantissaBits m) (hlt : 2 * m < top F)
    (hone : 2 ^ (2 * F.mantissaBits) ≤ one F) (hbits : 5 ≤ F.mantissaBits) :
    ∃ d : Magnitude F, d ≠ 0 ∧ mul (sqrt (capped F m)) (sqrt (capped F m)) = fin false d ∧
      ∃ c, Rounding.Fits F.mantissaBits c ∧ div (capped F m) (fin false d) = capped F c ∧
        (1 - 8 * roundoff F) * one F ≤ c := by
  obtain ⟨hpos, hhigh⟩ := round_square_root_bounds hm hone hbits rfl
  obtain ⟨n, hn⟩ : ∃ n, n = Rounding.round F.mantissaBits
    (Rounding.round F.mantissaBits √(m * one F) * Rounding.round F.mantissaBits √(m * one F) / one F) := ⟨_, rfl⟩
  rw [← hn] at hpos hhigh
  have hnfits : Rounding.Fits F.mantissaBits n := hn ▸ Rounding.round_fits (mantissaBits_pos F) _
  have hntop : n < top F := by
    have hu' := roundoff_le hbits
    have hm' : (0 : ℝ) ≤ m := Nat.cast_nonneg m
    have hle : (n : ℝ) ≤ (2 * m : ℕ) := by
      push_cast
      nlinarith
    exact (Nat.cast_le.mp hle).trans_lt hlt
  have hmul : mul (sqrt (capped F m)) (sqrt (capped F m)) = capped F n := by
    rw [sqrt_capped hm hfits (by omega), mul_self_capped (Rounding.round_fits (mantissaBits_pos F) _), hn]
  obtain ⟨d, hd, hdvalue⟩ := exists_capped hntop hnfits
  obtain ⟨mag, hmag, hmagvalue⟩ := exists_capped (show m < top F by omega) hfits
  have hdne : d ≠ 0 := by
    rw [Ne, Magnitude.eq_zero_iff, hd]
    exact hpos.ne'
  refine ⟨d, hdne, hmul.trans hdvalue, _, Rounding.round_fits (mantissaBits_pos F) (m * one F / n), ?_,
    le_round_div_square_root hm hone hbits rfl hn⟩
  rw [hmagvalue, ← rounded_eq_capped]
  simp only [div, if_neg hdne, hmag, hd]
  rfl

end Roots

end Ieee
