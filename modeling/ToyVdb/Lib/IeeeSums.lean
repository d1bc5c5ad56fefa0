import ToyVdb.Lib.Float32

/-!
# Sums of magnitudes

A computation that only squares and adds never changes sign, and once it is too large it stays so. It can
therefore be followed on naturals of unbounded size and cut off at the end, and its error is a matter of
naturals.
-/

namespace Ieee

open Float.Model (Format)

variable {F : Format}

namespace Value

/-! ### Absolute values -/

def abs : Value F → Value F
  | nan => nan
  | inf _ => inf false
  | fin _ m => fin false m

@[simp]
theorem abs_rounded (s : Bool) (x : ℝ) : abs (rounded F s x) = rounded F false x := by
  unfold rounded
  split <;> rfl

theorem signed_not (s : Bool) (m : Magnitude F) : signed (!s) m = -signed s m := by
  cases s <;> simp [signed]

theorem neg_neg (a : Value F) : neg (neg a) = a := by
  cases a <;> simp [neg]

theorem abs_neg_add_neg (a b : Value F) : abs (add (neg a) (neg b)) = abs (add a b) := by
  cases a with
  | nan => rfl
  | inf s =>
      cases b with
      | nan => rfl
      | inf t =>
          simp only [neg, add, Bool.not_inj_iff]
          split <;> rfl
      | fin t y => rfl
  | fin s x =>
      cases b with
      | nan => rfl
      | inf t => rfl
      | fin t y =>
          have hsum : signed (!s) x + signed (!t) y = -(signed s x + signed t y) := by
            rw [signed_not, signed_not]
            ring
          simp only [neg, add, hsum, neg_eq_zero, Int.natAbs_neg]
          split
          · rfl
          · simp

theorem abs_sub_comm (a b : Value F) : abs (sub a b) = abs (sub b a) := by
  rw [sub, sub, ← abs_neg_add_neg, neg_neg, add_comm]

theorem mul_self_abs (a : Value F) : mul (abs a) (abs a) = mul a a := by
  cases a <;> simp [abs, mul]

/-! ### What is no number -/

theorem mul_self_eq_nan_iff (a : Value F) : mul a a = nan ↔ a = nan := by
  cases a <;> simp [mul, rounded_ne_nan]

theorem sub_eq_nan_iff (a b : Value F) :
    sub a b = nan ↔ a = nan ∨ b = nan ∨ ∃ s, a = inf s ∧ b = inf s := by
  cases a with
  | nan => simp [sub, add]
  | inf s =>
      cases b with
      | nan => simp [sub, add, neg]
      | inf t => cases s <;> cases t <;> simp [sub, add, neg]
      | fin t y => simp [sub, add, neg]
  | fin s x =>
      cases b with
      | nan => simp [sub, add, neg]
      | inf t => simp [sub, add, neg]
      | fin t y =>
          simp only [sub, neg, add, reduceCtorEq, false_or, false_and, exists_false, iff_false]
          split <;> simp [rounded_ne_nan]

theorem abs_mul_self (a : Value F) : abs (mul a a) = mul a a := by
  cases a with
  | nan => rfl
  | inf s => simp [mul, abs]
  | fin s x => simp [mul]

theorem not_lt_zero_of_abs {a : Value F} (h : abs a = a) : ¬ lt a (fin false 0) := by
  intro hlt
  cases a with
  | nan => exact hlt.1 rfl
  | inf s =>
      cases s with
      | true => cases h
      | false => exact absurd hlt.2.2 (by simp [key])
  | fin s x =>
      cases s with
      | true => cases h
      | false => exact absurd hlt.2.2 (by simp [key, signed])

/-- Where no operand is negative, neither is the sum, and it is no number only if an operand is none. -/
theorem add_of_abs {a b : Value F} (ha : abs a = a) (hb : abs b = b) :
    abs (add a b) = add a b ∧ (add a b = nan ↔ a = nan ∨ b = nan) := by
  cases a with
  | nan => exact ⟨rfl, by simp [add]⟩
  | inf s =>
      cases s with
      | true => cases ha
      | false =>
          cases b with
          | nan => exact ⟨rfl, by simp [add]⟩
          | inf t =>
              cases t with
              | true => cases hb
              | false => exact ⟨rfl, by simp [add]⟩
          | fin t y => exact ⟨rfl, by simp [add]⟩
  | fin s x =>
      cases s with
      | true => cases ha
      | false =>
          cases b with
          | nan => exact ⟨rfl, by simp [add]⟩
          | inf t =>
              cases t with
              | true => cases hb
              | false => exact ⟨rfl, by simp [add]⟩
          | fin t y =>
              cases t with
              | true => cases hb
              | false =>
                  have hnonneg : ¬ signed false x + signed false y < 0 := by
                    simp only [signed, Bool.false_eq_true, if_false]
                    omega
                  simp only [add, decide_eq_false hnonneg]
                  split
                  · exact ⟨rfl, by simp⟩
                  · simp [rounded_ne_nan]

theorem foldl_add_of_abs {α : Type} (term : α → Value F) (items : List α)
    (hterms : ∀ item ∈ items, abs (term item) = term item) :
    abs (items.foldl (fun sum item => sum.add (term item)) (fin false 0)) =
        items.foldl (fun sum item => sum.add (term item)) (fin false 0) ∧
      (items.foldl (fun sum item => sum.add (term item)) (fin false 0) = nan ↔
        ∃ item ∈ items, term item = nan) := by
  induction items using List.reverseRecOn with
  | nil => simp [abs]
  | append_singleton items item ih =>
      obtain ⟨habs, hnan⟩ := ih fun i hi => hterms i (List.mem_append_left _ hi)
      obtain ⟨habs', hnan'⟩ := add_of_abs habs (hterms item (List.mem_append_right _ List.mem_cons_self))
      rw [List.foldl_append, List.foldl_cons, List.foldl_nil]
      refine ⟨habs', hnan'.trans ?_⟩
      rw [hnan]
      simp only [List.mem_append, List.mem_singleton, or_and_right, exists_or, exists_eq_left]

/-! ### The negative zero -/

theorem rounded_natCast_ne_zero (s t : Bool) {n : ℕ} (hn : n ≠ 0) : rounded F s n ≠ fin t 0 := by
  intro heq
  unfold rounded at heq
  split at heq
  · injection heq with hsign hmag
    rw [Magnitude.eq_zero_iff] at hmag
    have hhalf := (Rounding.round_eq_zero_iff (mantissaBits_pos F)).mp hmag
    have hone : (1 : ℝ) ≤ n := by exact_mod_cast Nat.one_le_iff_ne_zero.mpr hn
    linarith
  · cases heq

/-- No sum is the negative zero but that of two of them. -/
theorem add_ne_neg_zero {a : Value F} (ha : a ≠ fin true 0) (b : Value F) : add a b ≠ fin true 0 := by
  cases a with
  | nan => simp [add]
  | inf s =>
      cases b with
      | nan => simp [add]
      | inf t =>
          simp only [add]
          split <;> simp
      | fin t y => simp [add]
  | fin s x =>
      cases b with
      | nan => simp [add]
      | inf t => simp [add]
      | fin t y =>
          simp only [add]
          split
          · rename_i hzero
            intro heq
            injection heq with hsign
            obtain ⟨rfl, rfl⟩ := Bool.and_eq_true_iff.mp hsign
            have hx : x = 0 := by
              rw [Magnitude.eq_zero_iff]
              simp only [signed, if_true] at hzero
              omega
            exact ha (hx ▸ rfl)
          · rename_i hne
            exact rounded_natCast_ne_zero _ _ (Int.natAbs_ne_zero.mpr hne)

theorem foldl_add_ne_neg_zero {α : Type} (term : α → Value F) (items : List α) :
    items.foldl (fun sum item => sum.add (term item)) (fin false 0) ≠ fin true 0 := by
  induction items using List.reverseRecOn with
  | nil => simp
  | append_singleton items item ih =>
      rw [List.foldl_append, List.foldl_cons, List.foldl_nil]
      exact add_ne_neg_zero ih _

/-! ### Magnitudes of any size -/

/-- A natural number of units, infinite where it is too large for the format. -/
noncomputable def capped (F : Format) (n : ℕ) : Value F := rounded F false n

theorem capped_ne_nan (n : ℕ) : capped F n ≠ nan := rounded_ne_nan _ _

theorem capped_units (m : Magnitude F) : capped F m.units = fin false m := rounded_units false m

theorem rounded_eq_capped (x : ℝ) : rounded F false x = capped F (Rounding.round F.mantissaBits x) :=
  (rounded_round false x).symm

theorem key_capped {n : ℕ} (hn : Rounding.Fits F.mantissaBits n) : key (capped F n) = min n (top F) := by
  by_cases hlt : n < top F
  · rw [capped, rounded_of_fits _ hn hlt, Nat.min_eq_left hlt.le]
    rfl
  · rw [capped, rounded_of_top_le _ hn (not_lt.mp hlt), Nat.min_eq_right (not_lt.mp hlt)]
    rfl

theorem top_le_round {x : ℝ} (hx : (top F : ℝ) ≤ x) : top F ≤ Rounding.round F.mantissaBits x :=
  Rounding.le_round_of_fits (mantissaBits_pos F) (Rounding.fits_two_pow (mantissaBits_pos F) _) hx

theorem capped_of_top_le {n : ℕ} (hle : top F ≤ n) (hn : Rounding.Fits F.mantissaBits n) :
    capped F n = inf false := rounded_of_top_le false hn hle

theorem exists_capped {n : ℕ} (hlt : n < top F) (hn : Rounding.Fits F.mantissaBits n) :
    ∃ m : Magnitude F, m.units = n ∧ capped F n = fin false m :=
  ⟨⟨n, hn, hlt⟩, rfl, rounded_of_fits false hn hlt⟩

theorem add_capped {m n : ℕ} (hm : Rounding.Fits F.mantissaBits m) (hn : Rounding.Fits F.mantissaBits n) :
    add (capped F m) (capped F n) = capped F (Rounding.round F.mantissaBits (m + n : ℕ)) := by
  have hfits := Rounding.round_fits (mantissaBits_pos F) ((m + n : ℕ) : ℝ)
  by_cases hmtop : m < top F
  · obtain ⟨x, rfl, hx⟩ := exists_capped hmtop hm
    by_cases hntop : n < top F
    · obtain ⟨y, rfl, hy⟩ := exists_capped hntop hn
      have hsum : signed false x + signed false y = (x.units + y.units : ℕ) := by
        simp [signed]
      rw [hx, hy, ← rounded_eq_capped]
      simp only [add, hsum]
      split
      · rename_i hzero
        rw [Int.natCast_eq_zero.mp hzero]
        simp
      · rw [decide_eq_false (by omega), Int.natAbs_natCast]
    · have hle : top F ≤ Rounding.round F.mantissaBits (x.units + n : ℕ) := by
        apply top_le_round
        exact_mod_cast (not_lt.mp hntop).trans (Nat.le_add_left _ _)
      rw [hx, capped_of_top_le (not_lt.mp hntop) hn, capped_of_top_le hle hfits]
      rfl
  · have hle : top F ≤ Rounding.round F.mantissaBits (m + n : ℕ) := by
      apply top_le_round
      exact_mod_cast (not_lt.mp hmtop).trans (Nat.le_add_right _ _)
    rw [capped_of_top_le (not_lt.mp hmtop) hm, capped_of_top_le hle hfits]
    by_cases hntop : n < top F
    · obtain ⟨y, -, hy⟩ := exists_capped hntop hn
      rw [hy]
      rfl
    · rw [capped_of_top_le (not_lt.mp hntop) hn]
      rfl

theorem mul_self_capped {n : ℕ} (hn : Rounding.Fits F.mantissaBits n) :
    mul (capped F n) (capped F n) = capped F (Rounding.round F.mantissaBits (n * n / one F)) := by
  by_cases hlt : n < top F
  · obtain ⟨x, rfl, hx⟩ := exists_capped hlt hn
    rw [hx, ← rounded_eq_capped]
    simp [mul]
  · have hone : (0 : ℝ) < one F := by exact_mod_cast one_pos F
    have hle : top F ≤ Rounding.round F.mantissaBits (n * n / one F) := by
      apply top_le_round
      have htop : (top F : ℝ) ≤ n := by exact_mod_cast not_lt.mp hlt
      have hone' : (one F : ℝ) ≤ n := by exact_mod_cast (one_lt_top F).le.trans (not_lt.mp hlt)
      rw [le_div_iff₀ hone]
      exact mul_le_mul htop hone' hone.le (Nat.cast_nonneg n)
    rw [capped_of_top_le (not_lt.mp hlt) hn, capped_of_top_le hle (Rounding.round_fits (mantissaBits_pos F) _)]
    rfl

theorem abs_sub_fin (s t : Bool) (x y : Magnitude F) :
    abs (sub (fin s x) (fin t y)) =
      capped F (Rounding.round F.mantissaBits (signed s x - signed t y).natAbs) := by
  have hsum : signed s x + signed (!t) y = signed s x - signed t y := by
    rw [signed_not]
    ring
  simp only [sub, neg, add, hsum]
  rw [← rounded_eq_capped]
  split
  · rename_i hzero
    rw [hzero]
    simp [abs]
  · simp

end Value

/-! ### Sums -/

/-- The naturals, added one after the other and rounded each time. -/
noncomputable def runningSum (F : Format) (terms : List ℕ) : ℕ :=
  terms.foldl (fun sum term => Rounding.round F.mantissaBits (sum + term : ℕ)) 0

@[simp]
theorem runningSum_nil : runningSum F [] = 0 := rfl

theorem runningSum_concat (terms : List ℕ) (term : ℕ) :
    runningSum F (terms ++ [term]) =
      Rounding.round F.mantissaBits (runningSum F terms + term : ℕ) := by
  simp only [runningSum, List.foldl_append, List.foldl_cons, List.foldl_nil]

theorem runningSum_fits (terms : List ℕ) : Rounding.Fits F.mantissaBits (runningSum F terms) := by
  induction terms using List.reverseRecOn with
  | nil => exact dvd_zero _
  | append_singleton terms term _ =>
      rw [runningSum_concat]
      exact Rounding.round_fits (mantissaBits_pos F) _

/-- Adding up magnitudes is following them on naturals. -/
theorem foldl_add_capped (terms : List ℕ) (hfits : ∀ term ∈ terms, Rounding.Fits F.mantissaBits term) :
    terms.foldl (fun sum term => sum.add (Value.capped F term)) (.fin false 0) =
      Value.capped F (runningSum F terms) := by
  induction terms using List.reverseRecOn with
  | nil => exact (Value.capped_units 0).symm
  | append_singleton terms term ih =>
      have hterms : ∀ t ∈ terms, Rounding.Fits F.mantissaBits t := fun t ht =>
        hfits t (List.mem_append_left _ ht)
      rw [List.foldl_append, List.foldl_cons, List.foldl_nil, ih hterms, runningSum_concat,
        Value.add_capped (runningSum_fits terms) (hfits term (List.mem_append_right _ List.mem_cons_self))]

theorem runningSum_eq_zero_iff (terms : List ℕ) : runningSum F terms = 0 ↔ ∀ term ∈ terms, term = 0 := by
  induction terms using List.reverseRecOn with
  | nil => simp
  | append_singleton terms term ih =>
      have hhalf : ((runningSum F terms + term : ℕ) : ℝ) ≤ 1 / 2 ↔ runningSum F terms + term = 0 := by
        constructor
        · intro hle
          have hlt : ((runningSum F terms + term : ℕ) : ℝ) < 1 := by linarith
          exact Nat.lt_one_iff.mp (by exact_mod_cast hlt)
        · intro hzero
          rw [hzero]
          norm_num
      rw [runningSum_concat, Rounding.round_eq_zero_iff (mantissaBits_pos F), hhalf,
        Nat.add_eq_zero_iff, ih]
      simp only [List.mem_append, List.mem_singleton, or_imp, forall_and, forall_eq]

/-! ### Errors -/

/-- The largest relative error of a rounding. -/
noncomputable def roundoff (F : Format) : ℝ := 1 / (2 : ℕ) ^ F.mantissaBits

theorem roundoff_eq (F : Format) : roundoff F = 1 / 2 ^ F.mantissaBits := rfl

theorem roundoff_pos (F : Format) : 0 < roundoff F := by
  rw [roundoff_eq]
  positivity

theorem roundoff_le_one (F : Format) : roundoff F ≤ 1 := by
  rw [roundoff_eq, div_le_one (by positivity)]
  exact one_le_pow₀ one_le_two

theorem round_natCast_bounds (n : ℕ) :
    (1 - roundoff F) * n ≤ Rounding.round F.mantissaBits n ∧
      Rounding.round F.mantissaBits n ≤ (1 + roundoff F) * n := by
  have habs := abs_le.mp (Rounding.abs_round_natCast_sub_le (mantissaBits_pos F) n)
  have hunit : (n : ℝ) / 2 ^ F.mantissaBits = roundoff F * n := by
    rw [roundoff_eq]
    ring
  rw [hunit] at habs
  constructor <;> linarith [habs.1, habs.2]

theorem round_bounds {x : ℝ} (hx : 0 ≤ x) :
    (1 - roundoff F) * x - 1 / 2 ≤ Rounding.round F.mantissaBits x ∧
      Rounding.round F.mantissaBits x ≤ (1 + roundoff F) * x + 1 / 2 := by
  have hunit : x / 2 ^ F.mantissaBits = roundoff F * x := by
    rw [roundoff_eq]
    ring
  have hpos : 0 ≤ roundoff F * x := mul_nonneg (roundoff_pos F).le hx
  obtain h | h := Rounding.abs_round_sub_le (mantissaBits_pos F) hx
  · have habs := abs_le.mp h
    constructor <;> linarith [habs.1, habs.2]
  · rw [hunit] at h
    have habs := abs_le.mp h
    constructor <;> linarith [habs.1, habs.2]

theorem round_bounds_of_le {x : ℝ} (hlarge : 2 ^ F.mantissaBits ≤ x) :
    (1 - roundoff F) * x ≤ Rounding.round F.mantissaBits x ∧
      Rounding.round F.mantissaBits x ≤ (1 + roundoff F) * x := by
  have hpos : (0 : ℝ) < 2 ^ F.mantissaBits := by positivity
  have hrelative : |(Rounding.round F.mantissaBits x : ℝ) - x| ≤ x / 2 ^ F.mantissaBits := by
    obtain h | h := Rounding.abs_round_sub_le (mantissaBits_pos F) (hpos.le.trans hlarge)
    · refine h.trans ?_
      rw [le_div_iff₀ hpos]
      linarith
    · exact h
  have hunit : x / 2 ^ F.mantissaBits = roundoff F * x := by
    rw [roundoff_eq]
    ring
  rw [hunit] at hrelative
  have habs := abs_le.mp hrelative
  constructor <;> linarith [habs.1, habs.2]

/-- The first term is not rounded, so one rounding fewer than there are terms. -/
theorem runningSum_bounds (terms : List ℕ) (hfits : ∀ term ∈ terms, Rounding.Fits F.mantissaBits term) :
    (1 - roundoff F) ^ (terms.length - 1) * terms.sum ≤ runningSum F terms ∧
      runningSum F terms ≤ (1 + roundoff F) ^ (terms.length - 1) * terms.sum := by
  have hu := roundoff_pos F
  have hu' := roundoff_le_one F
  induction terms using List.reverseRecOn with
  | nil => simp
  | append_singleton terms term ih =>
      obtain ⟨hlow, hhigh⟩ := ih fun t ht => hfits t (List.mem_append_left _ ht)
      rcases List.eq_nil_or_concat terms with rfl | ⟨front, last, hne⟩
      · have hterm := hfits term (by simp)
        have hsum : runningSum F ([] ++ [term]) = term := by
          rw [runningSum_concat, runningSum_nil, Nat.zero_add, Rounding.round_eq_self hterm]
        rw [hsum]
        simp
      · have hlength : (terms ++ [term]).length - 1 = terms.length - 1 + 1 := by
          rw [hne]
          simp
        obtain ⟨hround, hround'⟩ := round_natCast_bounds (F := F) (runningSum F terms + term)
        have hterm : (0 : ℝ) ≤ term := Nat.cast_nonneg term
        rw [runningSum_concat, hlength, List.sum_append, List.sum_singleton, pow_succ, pow_succ]
        simp only [Nat.cast_add] at hround hround' ⊢
        constructor
        · refine le_trans ?_ hround
          have hpow : (1 - roundoff F) ^ (terms.length - 1) ≤ 1 := pow_le_one₀ (by linarith) (by linarith)
          calc (1 - roundoff F) ^ (terms.length - 1) * (1 - roundoff F) * (terms.sum + term)
              = (1 - roundoff F) * ((1 - roundoff F) ^ (terms.length - 1) * terms.sum +
                  (1 - roundoff F) ^ (terms.length - 1) * term) := by ring
            _ ≤ (1 - roundoff F) * (runningSum F terms + term) := by
                apply mul_le_mul_of_nonneg_left _ (by linarith)
                exact add_le_add hlow (mul_le_of_le_one_left hterm hpow)
        · refine hround'.trans ?_
          have hpow : 1 ≤ (1 + roundoff F) ^ (terms.length - 1) := one_le_pow₀ (by linarith)
          calc (1 + roundoff F) * (runningSum F terms + term)
              ≤ (1 + roundoff F) * ((1 + roundoff F) ^ (terms.length - 1) * terms.sum +
                  (1 + roundoff F) ^ (terms.length - 1) * term) := by
                apply mul_le_mul_of_nonneg_left _ (by linarith)
                exact add_le_add hhigh (le_mul_of_one_le_left hterm hpow)
            _ = (1 + roundoff F) ^ (terms.length - 1) * (1 + roundoff F) * (terms.sum + term) := by ring

/-! ### Sums of squares -/

/-- A difference, rounded, squared and rounded again. -/
noncomputable def roundedSquare (F : Format) (n : ℕ) : ℕ :=
  let r := Rounding.round F.mantissaBits n
  Rounding.round F.mantissaBits (r * r / one F)

theorem roundedSquare_fits (n : ℕ) : Rounding.Fits F.mantissaBits (roundedSquare F n) :=
  Rounding.round_fits (mantissaBits_pos F) _

theorem roundedSquare_of_fits {n : ℕ} (hn : Rounding.Fits F.mantissaBits n) :
    roundedSquare F n = Rounding.round F.mantissaBits (n * n / one F) := by
  rw [roundedSquare, Rounding.round_eq_self hn]

/-- A square is lost where it is at most half of the least positive value. -/
theorem roundedSquare_eq_zero_iff (n : ℕ) :
    roundedSquare F n = 0 ↔
      Rounding.round F.mantissaBits n * Rounding.round F.mantissaBits n * 2 ≤ one F := by
  have hone : (0 : ℝ) < one F := by exact_mod_cast one_pos F
  rw [roundedSquare, Rounding.round_eq_zero_iff (mantissaBits_pos F), div_le_iff₀ hone,
    ← @Nat.cast_le ℝ]
  push_cast
  constructor <;> intro h <;> linarith

/-- Three roundings, and half a unit where the square is very small. -/
theorem roundedSquare_bounds (n : ℕ) :
    (1 - roundoff F) ^ 3 * (n * n / one F) - 1 / 2 ≤ roundedSquare F n ∧
      roundedSquare F n ≤ (1 + roundoff F) ^ 3 * (n * n / one F) + 1 / 2 := by
  have hu := roundoff_pos F
  have hu' := roundoff_le_one F
  have hone : (0 : ℝ) < one F := by exact_mod_cast one_pos F
  have hn : (0 : ℝ) ≤ n := Nat.cast_nonneg n
  obtain ⟨hlow, hhigh⟩ := round_natCast_bounds (F := F) n
  set r := Rounding.round F.mantissaBits n with hr
  have hr0 : (0 : ℝ) ≤ r := Nat.cast_nonneg r
  obtain ⟨hlow', hhigh'⟩ := round_bounds (F := F) (x := r * r / one F) (by positivity)
  have hsquare : roundedSquare F n = Rounding.round F.mantissaBits (r * r / one F) := rfl
  rw [hsquare]
  constructor
  · refine le_trans ?_ hlow'
    have hsq : ((1 - roundoff F) * n) * ((1 - roundoff F) * n) ≤ (r : ℝ) * r :=
      mul_le_mul hlow hlow (mul_nonneg (by linarith) hn) hr0
    have hscaled : ((1 - roundoff F) * n) * ((1 - roundoff F) * n) / one F ≤ (r : ℝ) * r / one F := by
      gcongr
    have hmul := mul_le_mul_of_nonneg_left hscaled (show 0 ≤ 1 - roundoff F by linarith)
    calc (1 - roundoff F) ^ 3 * (n * n / one F) - 1 / 2
        = (1 - roundoff F) * (((1 - roundoff F) * n) * ((1 - roundoff F) * n) / one F) - 1 / 2 := by
          ring
      _ ≤ (1 - roundoff F) * (r * r / one F) - 1 / 2 := by linarith
  · refine hhigh'.trans ?_
    have hsq : (r : ℝ) * r ≤ ((1 + roundoff F) * n) * ((1 + roundoff F) * n) :=
      mul_le_mul hhigh hhigh hr0 (mul_nonneg (by linarith) hn)
    have hscaled : (r : ℝ) * r / one F ≤ ((1 + roundoff F) * n) * ((1 + roundoff F) * n) / one F := by
      gcongr
    have hmul := mul_le_mul_of_nonneg_left hscaled (show 0 ≤ 1 + roundoff F by linarith)
    calc (1 + roundoff F) * ((r : ℝ) * r / one F) + 1 / 2
        ≤ (1 + roundoff F) * (((1 + roundoff F) * n) * ((1 + roundoff F) * n) / one F) + 1 / 2 := by
          linarith
      _ = (1 + roundoff F) ^ 3 * (n * n / one F) + 1 / 2 := by ring

/-- The sum of the squares of the differences, exact but for its unit. -/
noncomputable def exactSquares (F : Format) (differences : List ℕ) : ℝ :=
  (differences.map fun n => (n * n / one F : ℝ)).sum

theorem sum_roundedSquare_bounds (differences : List ℕ) :
    (1 - roundoff F) ^ 3 * exactSquares F differences - differences.length / 2 ≤
        (differences.map (roundedSquare F)).sum ∧
      (differences.map (roundedSquare F)).sum ≤
        (1 + roundoff F) ^ 3 * exactSquares F differences + differences.length / 2 := by
  induction differences with
  | nil => simp [exactSquares]
  | cons n rest ih =>
      obtain ⟨hlow, hhigh⟩ := roundedSquare_bounds (F := F) n
      have hexact : exactSquares F (n :: rest) = n * n / one F + exactSquares F rest := by
        simp [exactSquares]
      rw [hexact, List.map_cons, List.sum_cons, List.length_cons]
      simp only [Nat.cast_add, Nat.cast_one]
      constructor <;> linarith [ih.1, ih.2]

theorem sumOfSquares_bounds (differences : List ℕ) :
    (1 - roundoff F) ^ (differences.length + 2) * exactSquares F differences - differences.length / 2 ≤
        runningSum F (differences.map (roundedSquare F)) ∧
      runningSum F (differences.map (roundedSquare F)) ≤
        (1 + roundoff F) ^ (differences.length + 2) *
          (exactSquares F differences + differences.length / 2) := by
  have hu := roundoff_pos F
  have hu' := roundoff_le_one F
  cases differences with
  | nil => simp [exactSquares]
  | cons n rest =>
      have hfits : ∀ term ∈ (n :: rest).map (roundedSquare F), Rounding.Fits F.mantissaBits term := by
        intro term hterm
        obtain ⟨d, -, rfl⟩ := List.mem_map.mp hterm
        exact roundedSquare_fits d
      obtain ⟨hlow, hhigh⟩ := runningSum_bounds _ hfits
      obtain ⟨hlow', hhigh'⟩ := sum_roundedSquare_bounds (F := F) (n :: rest)
      have hlength : (n :: rest).length + 2 = ((n :: rest).map (roundedSquare F)).length - 1 + 3 := by simp
      rw [hlength, pow_add, pow_add]
      set k := ((n :: rest).map (roundedSquare F)).length - 1
      set c : ℝ := ((n :: rest).length : ℝ) / 2 with hc
      have hc0 : 0 ≤ c := by positivity
      constructor
      · refine le_trans ?_ hlow
        have hpow : 0 ≤ (1 - roundoff F) ^ k := pow_nonneg (by linarith) _
        have hpow' : (1 - roundoff F) ^ k ≤ 1 := pow_le_one₀ (by linarith) (by linarith)
        have hmul := mul_le_mul_of_nonneg_left hlow' hpow
        have hsmall := mul_le_of_le_one_left hc0 hpow'
        linarith
      · refine hhigh.trans ?_
        have hpow : 0 ≤ (1 + roundoff F) ^ k := by positivity
        have hpow' : 1 ≤ (1 + roundoff F) ^ 3 := one_le_pow₀ (by linarith)
        have hmul := mul_le_mul_of_nonneg_left hhigh' hpow
        have hlarge := mul_le_mul_of_nonneg_left (le_mul_of_one_le_left hc0 hpow') hpow
        linarith

end Ieee
