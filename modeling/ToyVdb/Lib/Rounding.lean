import Mathlib

/-!
# Rounding to a number of significant bits

A real that is not negative, rounded to the nearest natural, and to the nearest natural with at most `p`
significant bits; a tie goes to the even one. Both keep the order and leave alone what fits already, and the
second is off by at most a half, or by at most one part in `2 ^ p`.
-/

namespace Rounding

/-! ### To the nearest natural -/

/-- The nearest natural, the even one of two that are as near. -/
noncomputable def nearest (x : ℝ) : ℕ :=
  if x < ⌊x⌋₊ + 1 / 2 then ⌊x⌋₊
  else if x = ⌊x⌋₊ + 1 / 2 then ⌊x⌋₊ + ⌊x⌋₊ % 2
  else ⌊x⌋₊ + 1

variable {x y : ℝ}

theorem floor_le_nearest (x : ℝ) : ⌊x⌋₊ ≤ nearest x := by
  unfold nearest
  split_ifs <;> omega

theorem nearest_le (x : ℝ) : nearest x ≤ ⌊x⌋₊ + 1 := by
  unfold nearest
  split_ifs <;> omega

@[simp]
theorem nearest_natCast (n : ℕ) : nearest n = n := by
  rw [nearest, Nat.floor_natCast, if_pos]
  linarith

theorem nearest_mono (hle : x ≤ y) : nearest x ≤ nearest y := by
  rcases (Nat.floor_le_floor hle).lt_or_eq with hlt | hsame
  · have hx := nearest_le x
    have hy := floor_le_nearest y
    omega
  · unfold nearest
    rw [hsame]
    split_ifs with hxlt hylt hyeq hxeq hylt hyeq hylt hyeq
    -- only where the smaller one rounds further up than the larger one is there anything to refute
    all_goals first | omega | exact absurd hylt (by linarith) | skip
    exact absurd (hle.trans_eq hyeq) (not_le.mpr (lt_of_le_of_ne (not_lt.mp hxlt) (Ne.symm hxeq)))

theorem abs_nearest_sub_le (hx : 0 ≤ x) : |(nearest x : ℝ) - x| ≤ 1 / 2 := by
  have hlow := Nat.floor_le hx
  have hhigh := Nat.lt_floor_add_one x
  rw [abs_le]
  unfold nearest
  split_ifs with hlt heq
  · constructor <;> linarith
  · have hpar : ⌊x⌋₊ % 2 = 0 ∨ ⌊x⌋₊ % 2 = 1 := Nat.mod_two_eq_zero_or_one _
    push_cast
    rcases hpar with hpar | hpar <;> rw [hpar] <;> push_cast <;> constructor <;> linarith
  · push_cast
    constructor <;> linarith

/-! ### To a number of significant bits -/

/-- The bits of a natural beyond the first p. -/
def spare (p n : ℕ) : ℕ := Nat.log2 n + 1 - p

/-- At most p significant bits. -/
def Fits (p n : ℕ) : Prop := 2 ^ spare p n ∣ n

instance (p n : ℕ) : Decidable (Fits p n) := inferInstanceAs (Decidable (_ ∣ _))

/-- The nearest natural of at most p significant bits. -/
noncomputable def round (p : ℕ) (x : ℝ) : ℕ :=
  nearest (x / 2 ^ spare p ⌊x⌋₊) * 2 ^ spare p ⌊x⌋₊

variable {p m n e : ℕ}

theorem spare_mono (hle : m ≤ n) : spare p m ≤ spare p n := by
  have hlog : Nat.log2 m ≤ Nat.log2 n := by
    simpa only [Nat.log2_eq_log_two] using Nat.log_mono_right hle
  unfold spare
  omega

theorem log2_mul_two_pow (hm : m ≠ 0) (e : ℕ) : Nat.log2 (m * 2 ^ e) = Nat.log2 m + e := by
  induction e with
  | zero => simp
  | succ e ih =>
      have hne : m * 2 ^ e ≠ 0 := Nat.mul_ne_zero hm (Nat.two_pow_pos e).ne'
      rw [Nat.log2_eq_log_two] at ih ⊢
      rw [pow_succ, ← mul_assoc, Nat.log_mul_base one_lt_two hne, ih]
      rfl

theorem log2_lt (hm : m ≠ 0) : m < 2 ^ p ↔ Nat.log2 m < p := by
  rw [Nat.log2_lt hm]

theorem spare_le_iff (hp : 0 < p) : spare p n ≤ e ↔ n < 2 ^ (p + e) := by
  by_cases hn : n = 0
  · subst hn
    simp [spare, Nat.log2_zero]
    omega
  · rw [log2_lt hn, spare]
    omega

theorem lt_two_pow_spare (hp : 0 < p) (n : ℕ) : n < 2 ^ (p + spare p n) := (spare_le_iff hp).mp le_rfl

theorem two_pow_le_of_spare (hspare : 0 < spare p n) (hp : 0 < p) : 2 ^ (p - 1 + spare p n) ≤ n := by
  unfold spare at hspare ⊢
  have hn : n ≠ 0 := by
    intro hzero
    subst hzero
    simp at hspare
    omega
  have hlog : p - 1 + (Nat.log2 n + 1 - p) = Nat.log2 n := by omega
  rw [hlog]
  exact Nat.log2_self_le hn

theorem fits_of_lt (hlt : n < 2 ^ p) : Fits p n := by
  by_cases hn : n = 0
  · simp [Fits, hn]
  · have hlog := (log2_lt hn).mp hlt
    have hspare : spare p n = 0 := by
      unfold spare
      omega
    simp [Fits, hspare]

theorem fits_mul_two_pow (hp : 0 < p) (hm : m ≤ 2 ^ p) (e : ℕ) : Fits p (m * 2 ^ e) := by
  by_cases hzero : m = 0
  · simp [Fits, hzero]
  rcases hm.lt_or_eq with hlt | rfl
  · have hlog := (log2_lt hzero).mp hlt
    have hspare : spare p (m * 2 ^ e) ≤ e := by
      rw [spare, log2_mul_two_pow hzero]
      omega
    exact (pow_dvd_pow 2 hspare).trans (dvd_mul_left _ _)
  · have hspare : spare p (2 ^ p * 2 ^ e) ≤ p + e := by
      rw [spare, log2_mul_two_pow hzero, Nat.log2_two_pow]
      omega
    rw [Fits, ← pow_add] at *
    exact pow_dvd_pow 2 hspare

theorem fits_two_pow (hp : 0 < p) (e : ℕ) : Fits p (2 ^ e) := by
  simpa using fits_mul_two_pow hp Nat.one_le_two_pow e

/-! ### What rounding does -/

theorem floor_div_two_pow (x : ℝ) (e : ℕ) : ⌊x / 2 ^ e⌋₊ = ⌊x⌋₊ / 2 ^ e := by
  have h := Nat.floor_div_natCast x (2 ^ e)
  push_cast at h
  exact h

theorem nearest_scaled_le (hp : 0 < p) (x : ℝ) : nearest (x / 2 ^ spare p ⌊x⌋₊) ≤ 2 ^ p := by
  have hlt := lt_two_pow_spare hp ⌊x⌋₊
  rw [pow_add, ← Nat.div_lt_iff_lt_mul (Nat.two_pow_pos _), ← floor_div_two_pow] at hlt
  exact (nearest_le _).trans hlt

theorem le_nearest_scaled (hspare : 0 < spare p ⌊x⌋₊) (hp : 0 < p) :
    2 ^ (p - 1) ≤ nearest (x / 2 ^ spare p ⌊x⌋₊) := by
  have hfloor := two_pow_le_of_spare hspare hp
  rw [pow_add, ← Nat.le_div_iff_mul_le (Nat.two_pow_pos _), ← floor_div_two_pow] at hfloor
  exact hfloor.trans (floor_le_nearest _)

theorem round_fits (hp : 0 < p) (x : ℝ) : Fits p (round p x) :=
  fits_mul_two_pow hp (nearest_scaled_le hp x) _

theorem round_eq_self (h : Fits p n) : round p n = n := by
  obtain ⟨c, hc⟩ := h
  rw [round, Nat.floor_natCast]
  have hscaled : (n : ℝ) / 2 ^ spare p n = c := by
    rw [div_eq_iff (by positivity)]
    calc (n : ℝ) = ((2 ^ spare p n * c : ℕ) : ℝ) := by rw [← hc]
      _ = c * 2 ^ spare p n := by push_cast; ring
  rw [hscaled, nearest_natCast, mul_comm, ← hc]

@[simp]
theorem round_zero (p : ℕ) : round p 0 = 0 := by
  simpa using round_eq_self (p := p) (n := 0) (by simp [Fits])

theorem round_mono (hp : 0 < p) (hle : x ≤ y) : round p x ≤ round p y := by
  rcases (spare_mono (p := p) (Nat.floor_le_floor hle)).lt_or_eq with hlt | hsame
  · -- a power of two lies between the results
    have hx : round p x ≤ 2 ^ (p + spare p ⌊x⌋₊) := by
      rw [pow_add]
      exact Nat.mul_le_mul_right _ (nearest_scaled_le hp x)
    have hbetween : 2 ^ (p + spare p ⌊x⌋₊) ≤ 2 ^ (p - 1 + spare p ⌊y⌋₊) :=
      Nat.pow_le_pow_right (by decide) (by omega)
    have hy : 2 ^ (p - 1 + spare p ⌊y⌋₊) ≤ round p y := by
      rw [pow_add]
      exact Nat.mul_le_mul_right _ (le_nearest_scaled (by omega) hp)
    exact hx.trans (hbetween.trans hy)
  · rw [round, round, hsame]
    apply Nat.mul_le_mul_right
    apply nearest_mono
    gcongr

theorem round_le_of_fits (hp : 0 < p) (hn : Fits p n) (hle : x ≤ n) : round p x ≤ n :=
  (round_mono hp hle).trans_eq (round_eq_self hn)

theorem le_round_of_fits (hp : 0 < p) (hn : Fits p n) (hle : n ≤ x) : n ≤ round p x :=
  (round_eq_self hn).symm.trans_le (round_mono hp hle)

theorem round_of_lt_one (hp : 0 < p) (hlt : x < 1) : round p x = nearest x := by
  have hfloor : ⌊x⌋₊ = 0 := Nat.floor_eq_zero.mpr hlt
  have hspare : spare p 0 = 0 := by
    simp [spare]
    omega
  rw [round, hfloor, hspare, pow_zero, pow_zero, div_one, mul_one]

/-- Only what is nearer to zero than to one is lost, and the tie. -/
theorem round_eq_zero_iff (hp : 0 < p) : round p x = 0 ↔ x ≤ 1 / 2 := by
  rcases lt_or_ge x 1 with hlt | hge
  · have hfloor : ⌊x⌋₊ = 0 := Nat.floor_eq_zero.mpr hlt
    rw [round_of_lt_one hp hlt, nearest, hfloor]
    split_ifs with hless heq
    · simp only [Nat.cast_zero, zero_add] at hless
      exact iff_of_true rfl hless.le
    · simp only [Nat.cast_zero, zero_add] at heq
      exact iff_of_true (by simp) heq.le
    · simp only [Nat.cast_zero, zero_add] at hless heq
      exact iff_of_false (by simp) (lt_of_le_of_ne (not_lt.mp hless) (Ne.symm heq)).not_ge
  · have hone : 1 ≤ round p x := le_round_of_fits (n := 1) hp (fits_two_pow hp 0) (by exact_mod_cast hge)
    constructor
    · intro hzero
      omega
    · intro hle
      linarith

theorem abs_round_sub_le_half (hx : 0 ≤ x) : |(round p x : ℝ) - x| ≤ 2 ^ spare p ⌊x⌋₊ / 2 := by
  have hnear := abs_nearest_sub_le (x := x / 2 ^ spare p ⌊x⌋₊) (by positivity)
  have hpos : (0 : ℝ) < 2 ^ spare p ⌊x⌋₊ := by positivity
  calc |(round p x : ℝ) - x|
      = |(nearest (x / 2 ^ spare p ⌊x⌋₊) : ℝ) - x / 2 ^ spare p ⌊x⌋₊| * 2 ^ spare p ⌊x⌋₊ := by
        rw [← abs_of_pos hpos, ← abs_mul, abs_of_pos hpos, sub_mul, div_mul_cancel₀ _ hpos.ne', round]
        push_cast
        rfl
    _ ≤ 1 / 2 * 2 ^ spare p ⌊x⌋₊ := by gcongr
    _ = 2 ^ spare p ⌊x⌋₊ / 2 := by ring

/-- Off by a half, where the naturals themselves are what limits the result, or by one part in `2 ^ p`. -/
theorem abs_round_sub_le (hp : 0 < p) (hx : 0 ≤ x) :
    |(round p x : ℝ) - x| ≤ 1 / 2 ∨ |(round p x : ℝ) - x| ≤ x / 2 ^ p := by
  have hhalf := abs_round_sub_le_half (p := p) hx
  rcases Nat.eq_zero_or_pos (spare p ⌊x⌋₊) with hzero | hpos
  · left
    simpa [hzero] using hhalf
  · right
    have hfloor : (2 : ℝ) ^ (p - 1 + spare p ⌊x⌋₊) ≤ x := by
      refine le_trans ?_ (Nat.floor_le hx)
      exact_mod_cast two_pow_le_of_spare hpos hp
    refine hhalf.trans ?_
    rw [le_div_iff₀ (by positivity)]
    calc (2 : ℝ) ^ spare p ⌊x⌋₊ / 2 * 2 ^ p = 2 ^ (p - 1 + spare p ⌊x⌋₊) := by
          obtain ⟨q, rfl⟩ : ∃ q, p = q + 1 := ⟨p - 1, by omega⟩
          rw [Nat.add_sub_cancel, pow_succ, pow_add]
          ring
      _ ≤ x := hfloor

theorem abs_round_natCast_sub_le (hp : 0 < p) (n : ℕ) : |(round p n : ℝ) - n| ≤ n / 2 ^ p := by
  by_cases hlt : n < 2 ^ p
  · rw [round_eq_self (fits_of_lt hlt)]
    simp
    positivity
  · rcases abs_round_sub_le hp (Nat.cast_nonneg (α := ℝ) n) with h | h
    · refine h.trans ?_
      rw [le_div_iff₀ (by positivity)]
      have hle : (2 : ℝ) ^ p ≤ n := by exact_mod_cast not_lt.mp hlt
      linarith [show (0 : ℝ) ≤ 2 ^ p by positivity]
    · exact h

/-! ### Near a power of two -/

theorem spare_two_pow_add (hp : 2 ≤ p) (j : ℕ) : spare p (2 ^ (j + p) + 2 ^ j) = j + 1 := by
  have hlog : Nat.log2 (2 ^ (j + p) + 2 ^ j) = j + p := by
    have hpow : 2 ^ j < 2 ^ (j + p) := Nat.pow_lt_pow_right (by decide) (by omega)
    have hpos := Nat.two_pow_pos j
    rw [Nat.log2_eq_iff (by positivity), pow_succ]
    omega
  rw [spare, hlog]
  omega

/-- A tie with the power of two below, which is even. -/
theorem round_two_pow_add (hp : 2 ≤ p) (j : ℕ) : round p ((2 ^ (j + p) + 2 ^ j : ℕ) : ℝ) = 2 ^ (j + p) := by
  rw [round, Nat.floor_natCast, spare_two_pow_add hp]
  obtain ⟨q, rfl⟩ : ∃ q, p = q + 2 := ⟨p - 2, by omega⟩
  have hscaled : ((2 ^ (j + (q + 2)) + 2 ^ j : ℕ) : ℝ) / 2 ^ (j + 1) = (2 ^ (q + 1) : ℕ) + 1 / 2 := by
    rw [div_eq_iff (by positivity)]
    push_cast
    ring
  have hfloor : ⌊((2 ^ (q + 1) : ℕ) : ℝ) + 1 / 2⌋₊ = 2 ^ (q + 1) := by
    rw [Nat.floor_eq_iff (by positivity)]
    constructor <;> linarith
  have heven : 2 ^ (q + 1) % 2 = 0 := by
    rw [pow_succ]
    exact Nat.mul_mod_left _ _
  rw [hscaled, nearest, hfloor, if_neg (lt_irrefl _), if_pos rfl, heven]
  ring

theorem round_le_two_pow_iff (hp : 2 ≤ p) (j n : ℕ) :
    round p n ≤ 2 ^ (j + p) ↔ n ≤ 2 ^ (j + p) + 2 ^ j := by
  have hp0 : 0 < p := by omega
  constructor
  · intro hround
    by_contra hlarge
    -- already the next natural is nearer to the next of the format
    obtain ⟨x, hx⟩ : ∃ x, x = 2 ^ (j + p) + 2 ^ j + 1 := ⟨_, rfl⟩
    have hspare : spare p x ≤ j + 1 := by
      have hlt : 2 ^ (j + 1) < 2 ^ (j + p) := Nat.pow_lt_pow_right (by decide) (by omega)
      have hnext : 2 ^ (p + (j + 1)) = 2 ^ (j + p) * 2 := by
        rw [← pow_succ]
        congr 1
        omega
      rw [pow_succ] at hlt
      rw [spare_le_iff hp0, hnext]
      have hpos := Nat.two_pow_pos j
      omega
    have herror := abs_le.mp (abs_round_sub_le_half (p := p) (Nat.cast_nonneg (α := ℝ) x))
    have hhalf : (2 : ℝ) ^ spare p x / 2 ≤ 2 ^ j := by
      rw [div_le_iff₀ two_pos, ← pow_succ]
      exact pow_le_pow_right₀ one_le_two hspare
    have hle : (round p x : ℝ) ≤ 2 ^ (j + p) := by
      have hmono : round p x ≤ round p n := round_mono hp0 (by exact_mod_cast (by omega : x ≤ n))
      exact_mod_cast hmono.trans hround
    have hcast : (x : ℝ) = 2 ^ (j + p) + 2 ^ j + 1 := by
      rw [hx]
      push_cast
      ring
    rw [Nat.floor_natCast] at herror
    linarith [herror.1]
  · intro hle
    rw [← round_two_pow_add hp j]
    exact round_mono hp0 (by exact_mod_cast hle)

end Rounding
