import ToyVdb.Lib.Tally

/-!
# Reciprocals of norms

One over the root of a sum, computed in one format and converted to another. Where the sum is neither small nor
large each of the steps is off by one rounding, and so is the product with a component.
-/

namespace Ieee

open Float.Model (Format)

variable {F G : Format}

theorem one_add_roundoff_le (hbits : 5 ≤ F.mantissaBits) : 1 + roundoff F ≤ 2 * (1 - roundoff F) := by
  have hu := roundoff_le hbits
  linarith

/-! ### Long sums -/

theorem le_runningSum {terms : List ℕ} (hfits : ∀ term ∈ terms, Rounding.Fits F.mantissaBits term) :
    ∀ term ∈ terms, term ≤ runningSum F terms := by
  induction terms using List.reverseRecOn with
  | nil => simp
  | append_singleton terms last ih =>
      intro term hterm
      have hround : ∀ n, Rounding.Fits F.mantissaBits n → n ≤ runningSum F terms + last →
          n ≤ runningSum F (terms ++ [last]) := by
        intro n hn hle
        rw [runningSum_concat]
        exact Rounding.le_round_of_fits (mantissaBits_pos F) hn (by exact_mod_cast hle)
      obtain hterm | hterm := List.mem_append.mp hterm
      · have hle := ih (fun t ht => hfits t (List.mem_append_left _ ht)) term hterm
        exact hle.trans (hround _ (runningSum_fits terms) (Nat.le_add_right ..))
      · obtain rfl := List.mem_singleton.mp hterm
        exact hround _ (hfits _ (List.mem_append_right _ hterm)) (Nat.le_add_left ..)

theorem pow_roundoff_bounds {n : ℕ} {ε : ℝ} (hn : n * roundoff F ≤ ε) (hε : ε ≤ 1 / 2) :
    1 - ε ≤ (1 - roundoff F) ^ n ∧ (1 + roundoff F) ^ n ≤ 1 + 2 * ε := by
  have hu := roundoff_pos F
  have hu' := roundoff_le_one F
  have hεpos : 0 ≤ ε := le_trans (by positivity) hn
  have hbernoulli : 1 - n * roundoff F ≤ (1 - roundoff F) ^ n := by
    have hpow := one_add_mul_le_pow (show (-2 : ℝ) ≤ -roundoff F by linarith) n
    have hneg : 1 + -roundoff F = 1 - roundoff F := by ring
    rw [hneg] at hpow
    linarith
  have hlow : 1 - ε ≤ (1 - roundoff F) ^ n := by linarith
  refine ⟨hlow, ?_⟩
  have hprod : (1 + roundoff F) ^ n * (1 - ε) ≤ 1 := by
    calc (1 + roundoff F) ^ n * (1 - ε) ≤ (1 + roundoff F) ^ n * (1 - roundoff F) ^ n :=
          mul_le_mul_of_nonneg_left hlow (by positivity)
      _ = (1 - roundoff F ^ 2) ^ n := by
          rw [← mul_pow]
          congr 1
          ring
      _ ≤ 1 := pow_le_one₀ (by nlinarith) (by nlinarith)
  have hone : 1 ≤ (1 + 2 * ε) * (1 - ε) := by nlinarith
  exact le_of_mul_le_mul_right (hprod.trans hone) (by linarith)

/-! ### The steps -/

section Steps

variable {N b R Q I : ℕ} {σ : ℝ}

theorem round_root_bounds (hone : 2 ^ (2 * F.mantissaBits) ≤ one F) (hN : 0 < N) (hσ : σ = √(N / one F : ℝ))
    (hR : R = Rounding.round F.mantissaBits √(N * one F)) :
    (1 - roundoff F) * (σ * one F) ≤ R ∧ R ≤ (1 + roundoff F) * (σ * one F) := by
  have honeF : (0 : ℝ) < one F := by exact_mod_cast one_pos F
  have hroot : √(N * one F : ℝ) = σ * one F := by
    rw [hσ, ← Real.sqrt_mul_self honeF.le, ← Real.sqrt_mul (by positivity), Real.sqrt_mul_self honeF.le]
    congr 1
    field_simp
  have hbounds := round_sqrt_bounds (F := F) hN hone
  rwa [← hR, hroot] at hbounds

theorem round_reciprocal_bounds (hbits : 5 ≤ F.mantissaBits) (hσpos : 0 < σ) (hσb : σ ≤ b)
    (hF : 2 * b * 2 ^ F.mantissaBits ≤ one F) (hRlow : (1 - roundoff F) * (σ * one F) ≤ R)
    (hRhigh : R ≤ (1 + roundoff F) * (σ * one F))
    (hQ : Q = Rounding.round F.mantissaBits (one F * one F / R)) :
    (1 - roundoff F) * one F ≤ (1 + roundoff F) * (Q * σ) ∧ (1 - roundoff F) * (Q * σ) ≤ (1 + roundoff F) * one F := by
  have hu := roundoff_pos F
  have hu' := roundoff_le hbits
  have honeF : (0 : ℝ) < one F := by exact_mod_cast one_pos F
  have hbpos : (0 : ℝ) < b := hσpos.trans_le hσb
  have hRpos : (0 : ℝ) < R := by
    have hscaled : 0 < (1 - roundoff F) * (σ * one F) := mul_pos (by linarith) (mul_pos hσpos honeF)
    linarith
  obtain ⟨z, hz⟩ : ∃ z : ℝ, z = one F * one F / R := ⟨_, rfl⟩
  have hzpos : 0 < z := by
    rw [hz]
    positivity
  have hzR : z * R = one F * one F := by
    rw [hz, div_mul_cancel₀ _ hRpos.ne']
  have hzlow : one F ≤ (1 + roundoff F) * σ * z := by
    have hmul := mul_le_mul_of_nonneg_left hRhigh hzpos.le
    have hcancel : one F * (one F : ℝ) ≤ one F * ((1 + roundoff F) * σ * z) := by linarith
    exact le_of_mul_le_mul_left hcancel honeF
  have hzhigh : (1 - roundoff F) * σ * z ≤ one F := by
    have hmul := mul_le_mul_of_nonneg_left hRlow hzpos.le
    have hcancel : one F * ((1 - roundoff F) * σ * z) ≤ one F * (one F : ℝ) := by linarith
    exact le_of_mul_le_mul_left hcancel honeF
  have hzlarge : 2 ^ F.mantissaBits ≤ z := by
    have hF' : (2 * b * 2 ^ F.mantissaBits : ℝ) ≤ one F := by exact_mod_cast hF
    have hmul := mul_le_mul_of_nonneg_right (show (1 + roundoff F) * σ ≤ 2 * b by nlinarith) hzpos.le
    have hcancel : 2 * b * (2 ^ F.mantissaBits : ℝ) ≤ 2 * b * z := by linarith
    exact le_of_mul_le_mul_left hcancel (by positivity)
  obtain ⟨hQlow, hQhigh⟩ := round_bounds_of_le (F := F) hzlarge
  rw [hz, ← hQ, ← hz] at hQlow hQhigh
  constructor
  · have h₁ := mul_le_mul_of_nonneg_left hzlow (show 0 ≤ 1 - roundoff F by linarith)
    have h₂ := mul_le_mul_of_nonneg_left hQlow (show 0 ≤ (1 + roundoff F) * σ by positivity)
    linarith
  · have h₁ := mul_le_mul_of_nonneg_left hzhigh (show 0 ≤ 1 + roundoff F by linarith)
    have h₂ := mul_le_mul_of_nonneg_left hQhigh (mul_nonneg (show 0 ≤ 1 - roundoff F by linarith) hσpos.le)
    linarith

theorem round_converted_bounds (hbits : 5 ≤ F.mantissaBits) (hσpos : 0 < σ) (hσb : σ ≤ b)
    (hG : 2 * b * 2 ^ G.mantissaBits ≤ one G)
    (hQlow : (1 - roundoff F) * one F ≤ (1 + roundoff F) * (Q * σ))
    (hQhigh : (1 - roundoff F) * (Q * σ) ≤ (1 + roundoff F) * one F)
    (hI : I = Rounding.round G.mantissaBits (Q / one F * one G)) :
    2 ^ G.mantissaBits ≤ (Q / one F * one G : ℝ) ∧
      (1 - roundoff G) * (1 - roundoff F) * one G ≤ (1 + roundoff F) * (I * σ) ∧
      (1 - roundoff F) * (I * σ) ≤ (1 + roundoff G) * (1 + roundoff F) * one G := by
  have hu := roundoff_pos F
  have hu' := roundoff_le hbits
  have hw := roundoff_pos G
  have hw' := roundoff_le_one G
  have honeF : (0 : ℝ) < one F := by exact_mod_cast one_pos F
  have honeG : (0 : ℝ) < one G := by exact_mod_cast one_pos G
  have hbpos : (0 : ℝ) < b := hσpos.trans_le hσb
  obtain ⟨t, ht⟩ : ∃ t : ℝ, t = Q / one F * one G := ⟨_, rfl⟩
  have htF : t * one F = Q * one G := by
    rw [ht]
    field_simp
  have htpos : 0 ≤ t := by
    rw [ht]
    positivity
  have htlow : (1 - roundoff F) * one G ≤ (1 + roundoff F) * (t * σ) := by
    have hmul := mul_le_mul_of_nonneg_right hQlow honeG.le
    have hcancel : one F * ((1 - roundoff F) * one G) ≤ one F * ((1 + roundoff F) * (t * σ)) := by
      calc one F * ((1 - roundoff F) * one G) = (1 - roundoff F) * one F * one G := by ring
        _ ≤ (1 + roundoff F) * (Q * σ) * one G := hmul
        _ = (1 + roundoff F) * σ * (Q * one G) := by ring
        _ = one F * ((1 + roundoff F) * (t * σ)) := by rw [← htF]; ring
    exact le_of_mul_le_mul_left hcancel honeF
  have hthigh : (1 - roundoff F) * (t * σ) ≤ (1 + roundoff F) * one G := by
    have hmul := mul_le_mul_of_nonneg_right hQhigh honeG.le
    have hcancel : one F * ((1 - roundoff F) * (t * σ)) ≤ one F * ((1 + roundoff F) * one G) := by
      calc one F * ((1 - roundoff F) * (t * σ)) = (1 - roundoff F) * σ * (Q * one G) := by rw [← htF]; ring
        _ = (1 - roundoff F) * (Q * σ) * one G := by ring
        _ ≤ (1 + roundoff F) * one F * one G := hmul
        _ = one F * ((1 + roundoff F) * one G) := by ring
    exact le_of_mul_le_mul_left hcancel honeF
  have htlarge : 2 ^ G.mantissaBits ≤ t := by
    have hG' : (2 * b * 2 ^ G.mantissaBits : ℝ) ≤ one G := by exact_mod_cast hG
    have htb : (1 - roundoff F) * one G ≤ (1 - roundoff F) * (2 * b * t) := by
      calc (1 - roundoff F) * one G ≤ (1 + roundoff F) * (t * σ) := htlow
        _ ≤ 2 * (1 - roundoff F) * (t * b) := by
          apply mul_le_mul (one_add_roundoff_le hbits) (mul_le_mul_of_nonneg_left hσb htpos) (by positivity)
          linarith
        _ = (1 - roundoff F) * (2 * b * t) := by ring
    have hcancel : 2 * b * (2 ^ G.mantissaBits : ℝ) ≤ 2 * b * t :=
      hG'.trans (le_of_mul_le_mul_left htb (by linarith))
    exact le_of_mul_le_mul_left hcancel (by positivity)
  obtain ⟨hIlow, hIhigh⟩ := round_bounds_of_le (F := G) htlarge
  rw [ht, ← hI, ← ht] at hIlow hIhigh
  rw [← ht]
  refine ⟨htlarge, ?_, ?_⟩
  · have h₁ := mul_le_mul_of_nonneg_left htlow (show 0 ≤ 1 - roundoff G by linarith)
    have h₂ := mul_le_mul_of_nonneg_left hIlow (show 0 ≤ (1 + roundoff F) * σ by positivity)
    linarith
  · have h₁ := mul_le_mul_of_nonneg_left hthigh (show 0 ≤ 1 + roundoff G by linarith)
    have h₂ := mul_le_mul_of_nonneg_left hIhigh (mul_nonneg (show 0 ≤ 1 - roundoff F by linarith) hσpos.le)
    linarith

end Steps

/-! ### The scale -/

/-- A factor in one format is the reciprocal of a number, but for roundings in both. -/
structure Reciprocal (F G : Format) (σ : ℝ) (I : ℕ) : Prop where
  large : 2 ^ G.mantissaBits ≤ I
  low : (1 - roundoff G) * (1 - roundoff F) * one G ≤ (1 + roundoff F) * (I * σ)
  high : (1 - roundoff F) * (I * σ) ≤ (1 + roundoff G) * (1 + roundoff F) * one G

section Scale

variable {N b : ℕ} {σ : ℝ}

theorem le_of_scaled_le (hbits : 5 ≤ F.mantissaBits) {x c : ℝ} (hx : 0 ≤ x) (hc : 0 ≤ c) (hσ : 1 ≤ σ)
    (hle : (1 - roundoff F) * (x * σ) ≤ c * (1 + roundoff F)) : x ≤ 2 * c := by
  have hu' := roundoff_le hbits
  have hpos : 0 < 1 - roundoff F := by linarith
  have hscaled : (1 - roundoff F) * x ≤ (1 - roundoff F) * (2 * c) := by
    calc (1 - roundoff F) * x ≤ (1 - roundoff F) * (x * σ) :=
          mul_le_mul_of_nonneg_left (le_mul_of_one_le_right hx hσ) hpos.le
      _ ≤ c * (1 + roundoff F) := hle
      _ ≤ c * (2 * (1 - roundoff F)) := mul_le_mul_of_nonneg_left (one_add_roundoff_le hbits) hc
      _ = (1 - roundoff F) * (2 * c) := by ring
  exact le_of_mul_le_mul_left hscaled hpos

theorem Value.reciprocal_root (hbits : 5 ≤ F.mantissaBits) (hone : 2 ^ (2 * F.mantissaBits) ≤ one F)
    (hF : 2 * b * 2 ^ F.mantissaBits ≤ one F) (hG : 2 * b * 2 ^ G.mantissaBits ≤ one G)
    (htopF : 4 * b * one F < top F) (htopG : 4 * b * one G < top G)
    (hfits : Rounding.Fits F.mantissaBits N) (hNtop : N < top F) (hlow : one F ≤ N)
    (hσ : σ = √(N / one F : ℝ)) (hσb : σ ≤ b) :
    ∃ I : Magnitude G, ((fin false 1).div (sqrt (capped F N))).convert G = fin false I ∧
      Reciprocal F G σ I.units := by
  have hu := roundoff_pos F
  have hu' := roundoff_le hbits
  have hw := roundoff_pos G
  have hw' := roundoff_le_one G
  have honeF : (0 : ℝ) < one F := by exact_mod_cast one_pos F
  have honeG : (0 : ℝ) < one G := by exact_mod_cast one_pos G
  have hN : 0 < N := (one_pos F).trans_le hlow
  have hσone : 1 ≤ σ := by
    rw [hσ, Real.one_le_sqrt, one_le_div honeF]
    exact_mod_cast hlow
  have hbone : (1 : ℝ) ≤ b := hσone.trans hσb
  have htopF' : (4 * b * one F : ℝ) < top F := by exact_mod_cast htopF
  have htopG' : (4 * b * one G : ℝ) < top G := by exact_mod_cast htopG
  obtain ⟨R, hR⟩ : ∃ R, R = Rounding.round F.mantissaBits √(N * one F) := ⟨_, rfl⟩
  obtain ⟨hRlow, hRhigh⟩ := round_root_bounds hone hN hσ hR
  have hRpos : 0 < R := by
    have hscaled : 0 < (1 - roundoff F) * (σ * one F) := mul_pos (by linarith) (by positivity)
    exact_mod_cast hscaled.trans_le hRlow
  have hRtop : R < top F := by
    have hle : (R : ℝ) ≤ 4 * b * one F := by nlinarith
    exact_mod_cast hle.trans_lt htopF'
  obtain ⟨Q, hQ⟩ : ∃ Q, Q = Rounding.round F.mantissaBits (one F * one F / R) := ⟨_, rfl⟩
  obtain ⟨hQlow, hQhigh⟩ := round_reciprocal_bounds hbits (by linarith) hσb hF hRlow hRhigh hQ
  have hQtop : Q < top F := by
    have hle := le_of_scaled_le hbits (Nat.cast_nonneg Q) honeF.le hσone (by linarith)
    have hle' : (Q : ℝ) ≤ 4 * b * one F := by nlinarith
    exact_mod_cast hle'.trans_lt htopF'
  obtain ⟨I, hI⟩ : ∃ I, I = Rounding.round G.mantissaBits (Q / one F * one G) := ⟨_, rfl⟩
  obtain ⟨hlarge, hIlow, hIhigh⟩ := round_converted_bounds hbits (by linarith) hσb hG hQlow hQhigh hI
  have hItop : I < top G := by
    have hle := le_of_scaled_le hbits (Nat.cast_nonneg I) (show 0 ≤ (1 + roundoff G) * one G by positivity) hσone
      (by linarith)
    have hle' : (I : ℝ) ≤ 4 * b * one G := by nlinarith
    exact_mod_cast hle'.trans_lt htopG'
  have hIlarge : 2 ^ G.mantissaBits ≤ I := by
    rw [hI]
    exact Rounding.le_round_of_fits (mantissaBits_pos G) (Rounding.fits_two_pow (mantissaBits_pos G) _)
      (by exact_mod_cast hlarge)
  have hfitsR : Rounding.Fits F.mantissaBits R := hR ▸ Rounding.round_fits (mantissaBits_pos F) _
  have hfitsQ : Rounding.Fits F.mantissaBits Q := hQ ▸ Rounding.round_fits (mantissaBits_pos F) _
  have hfitsI : Rounding.Fits G.mantissaBits I := hI ▸ Rounding.round_fits (mantissaBits_pos G) _
  have hroot : sqrt (capped F N) = fin false ⟨R, hfitsR, hRtop⟩ := by
    rw [sqrt_capped hN hfits hNtop, ← hR]
    exact rounded_of_fits false hfitsR hRtop
  have hquotient : (fin false 1).div (fin false ⟨R, hfitsR, hRtop⟩) = fin false ⟨Q, hfitsQ, hQtop⟩ := by
    simp only [div, Magnitude.eq_zero_iff, hRpos.ne', if_false, bne_self_eq_false, units_one]
    rw [← rounded_round, ← hQ]
    exact rounded_of_fits false hfitsQ hQtop
  refine ⟨⟨I, hfitsI, hItop⟩, ?_, hIlarge, hIlow, hIhigh⟩
  rw [hroot, hquotient, convert, ← rounded_round, ← hI]
  exact rounded_of_fits false hfitsI hItop

end Scale

section Reciprocal

variable {σ : ℝ} {I : Magnitude G}

/-- The units of a number times the factor, but for the sign. -/
noncomputable def scaledUnits (I : Magnitude G) (c : ℤ) : ℕ :=
  Rounding.round G.mantissaBits (c.natAbs * I.units : ℕ)

theorem scaledUnits_bounds (I : Magnitude G) (c : ℤ) :
    (1 - roundoff G) * (|(c : ℝ)| * I.units) ≤ scaledUnits I c ∧
      scaledUnits I c ≤ (1 + roundoff G) * (|(c : ℝ)| * I.units) := by
  have hbounds := round_natCast_bounds (F := G) (c.natAbs * I.units)
  rwa [← scaledUnits, Nat.cast_mul, Nat.cast_natAbs, Int.cast_abs] at hbounds

theorem scaledUnits_le (I : Magnitude G) (c : ℤ) : scaledUnits I c ≤ 2 * (c.natAbs * I.units) := by
  have hw' := roundoff_le_one G
  have hle : (scaledUnits I c : ℝ) ≤ (2 * (c.natAbs * I.units) : ℕ) := by
    refine (scaledUnits_bounds I c).2.trans ?_
    rw [Nat.cast_mul, Nat.cast_two, Nat.cast_mul, Nat.cast_natAbs, Int.cast_abs]
    exact mul_le_mul_of_nonneg_right (by linarith) (by positivity)
  exact Nat.cast_le.mp hle

theorem Value.mul_reciprocal (hrange : 2 ^ G.mantissaBits * one G < top G) {c : ℤ}
    (hc : |c| ≤ 2 ^ G.mantissaBits) (hroom : 2 * (c.natAbs * I.units) < top G) :
    ∃ y : Magnitude G, (counted G c).mul (fin false I) = fin (decide (c < 0)) y ∧ y.units = scaledUnits I c := by
  obtain ⟨x, hx, hunits, -⟩ := exists_counted hrange hc
  have hone : (one G : ℝ) ≠ 0 := by exact_mod_cast (one_pos G).ne'
  have hlt : scaledUnits I c < top G := (scaledUnits_le I c).trans_lt hroom
  refine ⟨⟨_, Rounding.round_fits (mantissaBits_pos G) _, hlt⟩, ?_, rfl⟩
  have hproduct : (x.units * I.units / one G : ℝ) = (c.natAbs * I.units : ℕ) := by
    rw [hunits, div_eq_iff hone]
    push_cast
    ring
  rw [hx, mul, hproduct, Bool.bne_false, rounded]
  exact dif_pos hlt

theorem Reciprocal.ratio (h : Reciprocal F G σ I.units) :
    (1 - roundoff G) * (1 - roundoff F) ≤ (1 + roundoff F) * (I.units * σ / one G) ∧
      (1 - roundoff F) * (I.units * σ / one G) ≤ (1 + roundoff G) * (1 + roundoff F) := by
  have honeG : (0 : ℝ) < one G := by exact_mod_cast one_pos G
  rw [← mul_div_assoc, ← mul_div_assoc, le_div_iff₀ honeG, div_le_iff₀ honeG]
  exact ⟨h.low, h.high⟩

/-- A sum of squares of what is scaled, against the sum of the squares of the numbers. -/
theorem scaledUnits_squares (I : Magnitude G) (hσ : 0 ≤ σ) (counts : List ℤ) :
    ((1 - roundoff G) * (I.units * σ / one G)) ^ 2 * (counts.map fun c : ℤ => (c : ℝ) ^ 2).sum ≤
        σ ^ 2 * (counts.map fun c : ℤ => (scaledUnits I c / one G : ℝ) ^ 2).sum ∧
      σ ^ 2 * (counts.map fun c : ℤ => (scaledUnits I c / one G : ℝ) ^ 2).sum ≤
        ((1 + roundoff G) * (I.units * σ / one G)) ^ 2 * (counts.map fun c : ℤ => (c : ℝ) ^ 2).sum := by
  have hw := roundoff_pos G
  have hw' := roundoff_le_one G
  have hone : (0 : ℝ) < one G := by exact_mod_cast one_pos G
  rw [← List.sum_map_mul_left, ← List.sum_map_mul_left, ← List.sum_map_mul_left]
  constructor
  · apply List.sum_le_sum
    intro c _
    rw [← sq_abs (c : ℝ), ← mul_pow, ← mul_pow]
    apply pow_le_pow_left₀ (mul_nonneg (mul_nonneg (by linarith) (by positivity)) (abs_nonneg _))
    calc (1 - roundoff G) * (I.units * σ / one G) * |(c : ℝ)|
        = σ * ((1 - roundoff G) * (|(c : ℝ)| * I.units)) / one G := by ring
      _ ≤ σ * scaledUnits I c / one G := by
          gcongr
          exact (scaledUnits_bounds I c).1
      _ = σ * (scaledUnits I c / one G) := mul_div_assoc ..
  · apply List.sum_le_sum
    intro c _
    rw [← sq_abs (c : ℝ), ← mul_pow, ← mul_pow]
    apply pow_le_pow_left₀ (by positivity)
    calc σ * (scaledUnits I c / one G) = σ * scaledUnits I c / one G := (mul_div_assoc ..).symm
      _ ≤ σ * ((1 + roundoff G) * (|(c : ℝ)| * I.units)) / one G := by
          gcongr
          exact (scaledUnits_bounds I c).2
      _ = (1 + roundoff G) * (I.units * σ / one G) * |(c : ℝ)| := by ring

/-- The squared norm of what is scaled, against the sum the factor comes from. -/
theorem Reciprocal.sum_squares (hbits : 5 ≤ F.mantissaBits) (h : Reciprocal F G σ I.units) (hσ : 0 ≤ σ)
    (counts : List ℤ) {S T : ℝ} (hS : S = (counts.map fun c : ℤ => (c : ℝ) ^ 2).sum)
    (hT : T = (counts.map fun c : ℤ => (scaledUnits I c / one G : ℝ) ^ 2).sum) :
    ((1 - roundoff G) ^ 2 * (1 - roundoff F)) ^ 2 * S ≤ (1 + roundoff F) ^ 2 * (σ ^ 2 * T) ∧
      (1 - roundoff F) ^ 2 * (σ ^ 2 * T) ≤ ((1 + roundoff G) ^ 2 * (1 + roundoff F)) ^ 2 * S := by
  have hu := roundoff_pos F
  have hu' := roundoff_le hbits
  have hw := roundoff_pos G
  have hw' := roundoff_le_one G
  obtain ⟨hdown, hup⟩ := scaledUnits_squares I hσ counts
  obtain ⟨hlow, hhigh⟩ := h.ratio
  obtain ⟨θ, hθ⟩ : ∃ θ : ℝ, θ = I.units * σ / one G := ⟨_, rfl⟩
  have hθpos : 0 ≤ θ := by
    rw [hθ]
    positivity
  have hSpos : 0 ≤ S := by
    rw [hS]
    apply List.sum_nonneg
    simp only [List.mem_map, forall_exists_index, and_imp]
    intro _ c _ hc
    rw [← hc]
    positivity
  rw [← hS, ← hT, ← hθ] at hdown hup
  rw [← hθ] at hlow hhigh
  constructor
  · calc ((1 - roundoff G) ^ 2 * (1 - roundoff F)) ^ 2 * S
        = ((1 - roundoff G) * ((1 - roundoff G) * (1 - roundoff F))) ^ 2 * S := by ring
      _ ≤ ((1 - roundoff G) * ((1 + roundoff F) * θ)) ^ 2 * S := by
          apply mul_le_mul_of_nonneg_right _ hSpos
          apply pow_le_pow_left₀ (mul_nonneg (by linarith) (mul_nonneg (by linarith) (by linarith)))
          exact mul_le_mul_of_nonneg_left hlow (by linarith)
      _ = (1 + roundoff F) ^ 2 * (((1 - roundoff G) * θ) ^ 2 * S) := by ring
      _ ≤ (1 + roundoff F) ^ 2 * (σ ^ 2 * T) := mul_le_mul_of_nonneg_left hdown (by positivity)
  · calc (1 - roundoff F) ^ 2 * (σ ^ 2 * T) ≤ (1 - roundoff F) ^ 2 * (((1 + roundoff G) * θ) ^ 2 * S) :=
          mul_le_mul_of_nonneg_left hup (by positivity)
      _ = ((1 + roundoff G) * ((1 - roundoff F) * θ)) ^ 2 * S := by ring
      _ ≤ ((1 + roundoff G) * ((1 + roundoff G) * (1 + roundoff F))) ^ 2 * S := by
          apply mul_le_mul_of_nonneg_right _ hSpos
          apply pow_le_pow_left₀ (mul_nonneg (by linarith) (mul_nonneg (by linarith) hθpos))
          exact mul_le_mul_of_nonneg_left hhigh (by linarith)
      _ = ((1 + roundoff G) ^ 2 * (1 + roundoff F)) ^ 2 * S := by ring

end Reciprocal

end Ieee
