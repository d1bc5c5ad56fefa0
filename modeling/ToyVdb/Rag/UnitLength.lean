import ToyVdb.Rag.MockEmbedding
import ToyVdb.Index.Cosine
import ToyVdb.Lib.Normalize

/-!
# The length of an embedding

The squares of the counts are exact in double precision, and their sum is nearly. What it takes to scale the counts
with the reciprocal of its root rounds four times, in two precisions, so an embedding has length one but for little.
-/

namespace ToyVdb

open Ieee Outcome

namespace MockEmbeddingModel

variable {dim : UInt32}

/-! ### The norm -/

/-- The squares, in units of double precision. -/
def squares (cs : List ℤ) : List ℕ := cs.map fun c => c.natAbs ^ 2 * one .binary64

/-- The sum of the squares, as it is rounded. -/
noncomputable def squaredCounts (cs : List ℤ) : ℕ := runningSum .binary64 (squares cs)

theorem fits_square {c : ℤ} (hc : |c| ≤ 2 ^ 24) :
    Rounding.Fits (Float.Model.Format.mantissaBits .binary64) (c.natAbs ^ 2 * one .binary64) := by
  have hnat : c.natAbs ≤ 2 ^ 24 := Value.natAbs_le_of_abs_le (F := .binary32) hc
  refine Rounding.fits_mul_two_pow (mantissaBits_pos _) ?_ _
  calc c.natAbs ^ 2 ≤ (2 ^ 24) ^ 2 := Nat.pow_le_pow_left hnat 2
    _ ≤ 2 ^ Float.Model.Format.mantissaBits .binary64 := by decide

theorem fits_squares {cs : List ℤ} (hcs : ∀ c ∈ cs, |c| ≤ 2 ^ 24) :
    ∀ n ∈ squares cs, Rounding.Fits (Float.Model.Format.mantissaBits .binary64) n := by
  intro n hn
  obtain ⟨c, hc, rfl⟩ := List.mem_map.mp hn
  exact fits_square (hcs c hc)

theorem value_square {x : Float32} {c : ℤ} (hx : value x = .counted .binary32 c) (hc : |c| ≤ 2 ^ 24) :
    value64 (widen x * widen x) = .capped .binary64 (c.natAbs ^ 2 * one .binary64) := by
  have hc' : |c| ≤ 2 ^ Float.Model.Format.mantissaBits .binary64 := hc.trans (by decide)
  rw [value64_mul, value64_widen, hx, Value.convert_counted (two_pow_mul_one_lt_top (by decide)) hc]
  exact Value.mul_self_counted (two_pow_mul_one_lt_top (by decide)) hc'

theorem value_normSq {v : List Float32} {cs : List ℤ} (hv : v.map value = cs.map (Value.counted .binary32))
    (hcs : ∀ c ∈ cs, |c| ≤ 2 ^ 24) : value64 (normSq v) = .capped .binary64 (squaredCounts cs) := by
  have hfold : value64 (normSq v) =
      v.foldl (fun sum x => sum.add (value64 (widen x * widen x))) (.fin false 0) := by
    refine (List.foldl_hom value64 ?_).symm
    intro sum x
    exact (value64_add ..).symm
  have hsquares : v.map (fun x => value64 (widen x * widen x)) = (squares cs).map (Value.capped .binary64) := by
    apply List.ext_getElem
    · simpa [squares] using congrArg List.length hv
    · intro i hi hi'
      simp only [squares, List.length_map] at hi hi'
      have hi'' := congrArg (fun values => values[i]?) hv
      simp only [List.getElem?_map, List.getElem?_eq_getElem hi, List.getElem?_eq_getElem hi', Option.map_some,
        Option.some_inj] at hi''
      simp only [squares, List.getElem_map]
      exact value_square hi'' (hcs _ (List.getElem_mem hi'))
  rw [hfold, squaredCounts, ← foldl_add_capped _ (fits_squares hcs), ← List.foldl_map, hsquares, List.foldl_map]

/-- The sum of the squares. -/
def squareSum (cs : List ℤ) : ℤ := (cs.map fun c => c ^ 2).sum

theorem squareSum_nonneg (cs : List ℤ) : 0 ≤ squareSum cs := by
  apply List.sum_nonneg
  simp only [List.mem_map, forall_exists_index, and_imp]
  intro _ c _ hc
  rw [← hc]
  positivity

theorem squareSum_le {cs : List ℤ} (hcs : ∀ c ∈ cs, |c| ≤ 2 ^ 24) : squareSum cs ≤ cs.length * 2 ^ 48 := by
  induction cs with
  | nil => simp [squareSum]
  | cons c cs ih =>
      obtain ⟨hc, hrest⟩ := List.forall_mem_cons.mp hcs
      have hle := ih hrest
      have hsq : c ^ 2 ≤ 2 ^ 48 := by
        rw [← sq_abs]
        exact (pow_le_pow_left₀ (abs_nonneg c) hc 2).trans (by norm_num)
      rw [squareSum, List.map_cons, List.sum_cons, List.length_cons]
      rw [squareSum] at hle
      push_cast
      linarith

theorem cast_sum_squares (cs : List ℤ) : ((squares cs).sum : ℝ) = squareSum cs * one .binary64 := by
  induction cs with
  | nil =>
      rw [squareSum, squares, List.map_nil, List.map_nil, List.sum_nil, List.sum_nil, Nat.cast_zero, Int.cast_zero,
        zero_mul]
  | cons c cs ih =>
      have hsq : (c.natAbs : ℝ) ^ 2 = (c : ℝ) ^ 2 := by
        rw [Nat.cast_natAbs, Int.cast_abs, sq_abs]
      rw [squares, squareSum] at ih ⊢
      rw [List.map_cons, List.sum_cons, Nat.cast_add, ih, List.map_cons, List.sum_cons, Int.cast_add, Nat.cast_mul,
        Nat.cast_pow, hsq, Int.cast_pow]
      ring

/-- The roundings of a sum over all components there can be are little. -/
theorem squaredCounts_bounds {cs : List ℤ} (hlen : cs.length ≤ 2 ^ 32) (hcs : ∀ c ∈ cs, |c| ≤ 2 ^ 24) :
    (1 - 1 / 2 ^ 21) * squareSum cs ≤ (squaredCounts cs / one .binary64 : ℝ) ∧
      (squaredCounts cs / one .binary64 : ℝ) ≤ (1 + 1 / 2 ^ 20) * squareSum cs := by
  have hone : (0 : ℝ) < one .binary64 := by exact_mod_cast one_pos _
  have hcount : ((cs.length - 1 : ℕ) : ℝ) * roundoff .binary64 ≤ 1 / 2 ^ 21 := by
    have hle : ((cs.length - 1 : ℕ) : ℝ) ≤ 2 ^ 32 := by exact_mod_cast (Nat.sub_le ..).trans hlen
    have hroundoff : roundoff .binary64 = 1 / 2 ^ 53 := roundoff_eq .binary64
    rw [hroundoff]
    calc ((cs.length - 1 : ℕ) : ℝ) * (1 / 2 ^ 53) ≤ 2 ^ 32 * (1 / 2 ^ 53) :=
          mul_le_mul_of_nonneg_right hle (by positivity)
      _ = 1 / 2 ^ 21 := by norm_num
  obtain ⟨hpow, hpow'⟩ := pow_roundoff_bounds hcount (by norm_num)
  obtain ⟨hlow, hhigh⟩ := runningSum_bounds (squares cs) (fits_squares hcs)
  rw [squares, List.length_map, ← squares, cast_sum_squares, ← squaredCounts] at hlow hhigh
  have hsum : (0 : ℝ) ≤ squareSum cs * one .binary64 :=
    mul_nonneg (by exact_mod_cast squareSum_nonneg cs) hone.le
  rw [le_div_iff₀ hone, div_le_iff₀ hone]
  constructor
  · calc (1 - 1 / 2 ^ 21) * squareSum cs * one .binary64
        = (1 - 1 / 2 ^ 21) * (squareSum cs * one .binary64 : ℝ) := by ring
      _ ≤ _ := mul_le_mul_of_nonneg_right hpow hsum
      _ ≤ _ := hlow
  · calc (squaredCounts cs : ℝ) ≤ _ := hhigh
      _ ≤ (1 + 2 * (1 / 2 ^ 21)) * (squareSum cs * one .binary64 : ℝ) :=
          mul_le_mul_of_nonneg_right hpow' hsum
      _ = (1 + 1 / 2 ^ 20) * squareSum cs * one .binary64 := by ring

/-- The root of the sum. -/
noncomputable def norm (cs : List ℤ) : ℝ := √(squaredCounts cs / one .binary64 : ℝ)

theorem one_le_squaredCounts {cs : List ℤ} (hcs : ∀ c ∈ cs, |c| ≤ 2 ^ 24) (hne : ∃ c ∈ cs, c ≠ 0) :
    one .binary64 ≤ squaredCounts cs := by
  obtain ⟨c, hc, hzero⟩ := hne
  refine le_trans ?_ (le_runningSum (fits_squares hcs) _ (List.mem_map_of_mem hc))
  exact Nat.le_mul_of_pos_left _ (Nat.pow_pos (Int.natAbs_pos.mpr hzero))

theorem squaredCounts_le {cs : List ℤ} (hlen : cs.length ≤ 2 ^ 32) (hcs : ∀ c ∈ cs, |c| ≤ 2 ^ 24) :
    (squaredCounts cs / one .binary64 : ℝ) ≤ (2 ^ 41) ^ 2 := by
  have hsum : (squareSum cs : ℝ) ≤ 2 ^ 80 := by
    have hle : squareSum cs ≤ 2 ^ 80 := by
      refine (squareSum_le hcs).trans ?_
      have hlen' : (cs.length : ℤ) ≤ 2 ^ 32 := by exact_mod_cast hlen
      omega
    exact_mod_cast hle
  refine (squaredCounts_bounds hlen hcs).2.trans ?_
  calc (1 + 1 / 2 ^ 20 : ℝ) * squareSum cs ≤ 2 * 2 ^ 80 :=
        mul_le_mul (by norm_num) hsum (by exact_mod_cast squareSum_nonneg cs) (by norm_num)
    _ ≤ (2 ^ 41) ^ 2 := by norm_num

theorem norm_le {cs : List ℤ} (hlen : cs.length ≤ 2 ^ 32) (hcs : ∀ c ∈ cs, |c| ≤ 2 ^ 24) :
    norm cs ≤ (2 ^ 41 : ℕ) := by
  rw [norm, Real.sqrt_le_left (Nat.cast_nonneg _)]
  rw [Nat.cast_pow, Nat.cast_two]
  exact squaredCounts_le hlen hcs

theorem squaredCounts_lt_top {cs : List ℤ} (hlen : cs.length ≤ 2 ^ 32) (hcs : ∀ c ∈ cs, |c| ≤ 2 ^ 24) :
    squaredCounts cs < top .binary64 := by
  have hone : (0 : ℝ) < one .binary64 := by exact_mod_cast one_pos _
  have hle := squaredCounts_le hlen hcs
  rw [div_le_iff₀ hone] at hle
  have hle' : squaredCounts cs ≤ (2 ^ 41) ^ 2 * one .binary64 := by exact_mod_cast hle
  refine hle'.trans_lt ?_
  rw [← pow_mul]
  exact two_pow_mul_one_lt_top (by decide)

theorem reciprocal_norm {cs : List ℤ} (hlen : cs.length ≤ 2 ^ 32) (hcs : ∀ c ∈ cs, |c| ≤ 2 ^ 24)
    (hne : ∃ c ∈ cs, c ≠ 0) {x : Float} (hx : value64 x = .capped .binary64 (squaredCounts cs)) :
    ∃ I : Magnitude .binary32, value (narrow (1 / x.sqrt)) = .fin false I ∧
      Reciprocal .binary64 .binary32 (norm cs) I.units := by
  have hone : ∀ F : Float.Model.Format, 42 + F.mantissaBits ≤ 2 ^ (F.exponentBits - 1) + F.mantissaBits - 3 →
      2 * 2 ^ 41 * 2 ^ F.mantissaBits ≤ one F := by
    intro F hle
    rw [← pow_succ', ← pow_add]
    exact two_pow_le_one hle
  have htop : ∀ F : Float.Model.Format,
      43 + (2 ^ (F.exponentBits - 1) + F.mantissaBits - 3) < 2 ^ F.exponentBits + F.mantissaBits - 3 →
        4 * 2 ^ 41 * one F < top F := by
    intro F hlt
    have hfour : 4 * 2 ^ 41 = 2 ^ 43 := by norm_num
    rw [hfour]
    exact two_pow_mul_one_lt_top hlt
  obtain ⟨I, hI, hreciprocal⟩ := Value.reciprocal_root (F := .binary64) (G := .binary32) (N := squaredCounts cs)
    (b := 2 ^ 41) (by decide) (two_pow_le_one (by decide)) (hone _ (by decide)) (hone _ (by decide))
    (htop _ (by decide)) (htop _ (by decide)) (runningSum_fits _) (squaredCounts_lt_top hlen hcs)
    (one_le_squaredCounts hcs hne) rfl (norm_le hlen hcs)
  refine ⟨I, ?_, hreciprocal⟩
  rw [value_narrow, value64_div, value64_one, value64_sqrt, hx, hI]

/-! ### The components -/

theorem normSq_pos_iff {v : List Float32} {cs : List ℤ} (hv : v.map value = cs.map (Value.counted .binary32))
    (hcs : ∀ c ∈ cs, |c| ≤ 2 ^ 24) : 0 < normSq v ↔ ∃ c ∈ cs, c ≠ 0 := by
  have hfits : Rounding.Fits (Float.Model.Format.mantissaBits .binary64) (squaredCounts cs) := runningSum_fits _
  have hkey := Value.key_capped hfits
  have htop := top_pos .binary64
  have hzero : Value.key (.fin false 0 : Value .binary64) = 0 := Value.signed_zero false
  have hpos : 0 < normSq v ↔ 0 < squaredCounts cs := by
    rw [lt64_iff, value_normSq hv hcs, value64_zero, Value.lt, hkey, hzero, Int.natCast_pos, lt_min_iff]
    exact ⟨fun hlt => hlt.2.2.1, fun hlt => ⟨nofun, Value.capped_ne_nan _, hlt, htop⟩⟩
  rw [hpos]
  constructor
  · intro hsum
    by_contra hall
    simp only [not_exists, not_and, not_not] at hall
    refine hsum.ne' ((runningSum_eq_zero_iff _).mpr fun n hn => ?_)
    obtain ⟨c, hc, rfl⟩ := List.mem_map.mp hn
    rw [hall c hc, Int.natAbs_zero, zero_pow two_ne_zero, Nat.zero_mul]
  · exact fun hne => (one_pos _).trans_le (one_le_squaredCounts hcs hne)

/-- A component in units, with the sign of its count. -/
def ScaledBy (I : Magnitude .binary32) (x : Float32) (c : ℤ) : Prop :=
  ∃ y : Magnitude .binary32, value x = .fin (decide (c < 0)) y ∧ y.units = scaledUnits I c

theorem one_le_norm {cs : List ℤ} (hcs : ∀ c ∈ cs, |c| ≤ 2 ^ 24) (hne : ∃ c ∈ cs, c ≠ 0) : 1 ≤ norm cs := by
  have hone : (0 : ℝ) < one .binary64 := by exact_mod_cast one_pos _
  rw [norm, Real.one_le_sqrt, one_le_div hone]
  exact_mod_cast one_le_squaredCounts hcs hne

theorem room_of_reciprocal {cs : List ℤ} {I : Magnitude .binary32} (hcs : ∀ c ∈ cs, |c| ≤ 2 ^ 24)
    (hne : ∃ c ∈ cs, c ≠ 0) (h : Reciprocal .binary64 .binary32 (norm cs) I.units) :
    ∀ c ∈ cs, 2 * (c.natAbs * I.units) ≤ 2 ^ 27 * one .binary32 := by
  intro c hc
  have hw := roundoff_le_one .binary32
  have hw' := roundoff_pos .binary32
  have hone : (0 : ℝ) < one .binary32 := by exact_mod_cast one_pos _
  have hle := le_of_scaled_le (F := .binary64) (c := (1 + roundoff .binary32) * one .binary32) (by decide)
    (Nat.cast_nonneg I.units) (by positivity) (one_le_norm hcs hne) (by linarith [h.high])
  have hunits : I.units ≤ 2 ^ 2 * one .binary32 := by
    have hcast : (I.units : ℝ) ≤ (2 ^ 2 * one .binary32 : ℕ) := by
      push_cast
      nlinarith
    exact_mod_cast hcast
  have hnat : c.natAbs ≤ 2 ^ 24 := Value.natAbs_le_of_abs_le (F := .binary32) (hcs c hc)
  calc 2 * (c.natAbs * I.units) ≤ 2 * (2 ^ 24 * (2 ^ 2 * one .binary32)) :=
        Nat.mul_le_mul_left 2 (Nat.mul_le_mul hnat hunits)
    _ = 2 ^ 27 * one .binary32 := by ring

theorem scaled_values {v : List Float32} {cs : List ℤ} {I : Magnitude .binary32} {inv : Float32}
    (hinv : value inv = .fin false I) (hv : List.Forall₂ (fun x c => value x = .counted .binary32 c) v cs)
    (hcs : ∀ c ∈ cs, |c| ≤ 2 ^ 24) (hroom : ∀ c ∈ cs, 2 * (c.natAbs * I.units) ≤ 2 ^ 27 * one .binary32) :
    List.Forall₂ (ScaledBy I) (v.map (· * inv)) cs := by
  induction hv with
  | nil => exact .nil
  | @cons x c v cs hx hrest ih =>
      obtain ⟨hc, hcs⟩ := List.forall_mem_cons.mp hcs
      obtain ⟨hle, hroom⟩ := List.forall_mem_cons.mp hroom
      obtain ⟨y, hy, hunits⟩ := Value.mul_reciprocal (two_pow_mul_one_lt_top (by decide)) hc
        (hle.trans_lt (two_pow_mul_one_lt_top (by decide)))
      refine .cons ⟨y, ?_, hunits⟩ (ih hcs hroom)
      rw [value_mul, hx, hinv]
      exact hy

theorem normalize_values {v : List Float32} {cs : List ℤ} (hv : v.map value = cs.map (Value.counted .binary32))
    (hlen : cs.length ≤ 2 ^ 32) (hcs : ∀ c ∈ cs, |c| ≤ 2 ^ 24) (hne : ∃ c ∈ cs, c ≠ 0) :
    ∃ I : Magnitude .binary32, Reciprocal .binary64 .binary32 (norm cs) I.units ∧
      List.Forall₂ (ScaledBy I) (normalize v) cs := by
  obtain ⟨I, hI, hreciprocal⟩ := reciprocal_norm hlen hcs hne (value_normSq hv hcs)
  have hpairs : List.Forall₂ (fun x c => value x = .counted .binary32 c) v cs := by
    rw [← List.forall₂_map_right_iff, ← List.forall₂_map_left_iff, List.forall₂_eq_eq_eq]
    exact hv
  refine ⟨I, hreciprocal, ?_⟩
  rw [normalize, if_pos ((normSq_pos_iff hv hcs).mpr hne)]
  exact scaled_values hI hpairs hcs (room_of_reciprocal hcs hne hreciprocal)

/-! ### The embedding -/

theorem ofBits_toBits (x : Float32) : Float32.ofBits x.toBits = x :=
  value_injective (value_ofBits x.toBits)

theorem length_counts (text : Bytes) : (counts dim text).length = dim.toNat := by
  rw [counts, List.length_map, List.length_range]

theorem length_counts_le (text : Bytes) : (counts dim text).length ≤ 2 ^ 32 := by
  rw [length_counts]
  exact dim.toNat_lt.le

theorem length_normalize (v : List Float32) : (normalize v).length = v.length := by
  rw [normalize]
  split
  · exact List.length_map _
  · rfl

/-- The embedding is made of the counts: of these as they are where all are zero, and scaled otherwise. -/
theorem embed_yields (hdim : dim ≠ 0) (text : Bytes) :
    Yields (embed dim text) fun vec => ∃ v : List Float32, vec = v.map Float32.toBits ∧ v.length = dim.toNat ∧
      ((∀ c ∈ counts dim text, c = 0) ∧ v = List.replicate dim.toNat 0 ∨
        (∃ c ∈ counts dim text, c ≠ 0) ∧ ∃ I : Magnitude .binary32,
          Reciprocal .binary64 .binary32 (norm (counts dim text)) I.units ∧
            List.Forall₂ (ScaledBy I) v (counts dim text)) := by
  refine (count_yields hdim (tokenize text)).bind fun v hv => .pure ⟨normalize v, rfl, ?_, ?_⟩
  · rw [length_normalize, hv.1]
  · have hvalues := Counted.values text hv
    by_cases hne : ∃ c ∈ counts dim text, c ≠ 0
    · exact .inr ⟨hne, normalize_values hvalues (length_counts_le text) abs_counts_le hne⟩
    · have hzero : ∀ c ∈ counts dim text, c = 0 := by
        simpa only [not_exists, not_and, not_not] using hne
      refine .inl ⟨hzero, ?_⟩
      rw [normalize, if_neg fun hpos => hne ((normSq_pos_iff hvalues abs_counts_le).mp hpos)]
      refine List.eq_replicate_iff.mpr ⟨hv.1, fun x hx => ?_⟩
      have hmem : value x ∈ (counts dim text).map (Value.counted .binary32) := by
        rw [← hvalues]
        exact List.mem_map_of_mem hx
      obtain ⟨c, hc, heq⟩ := List.mem_map.mp hmem
      rw [hzero c hc, Value.counted_zero] at heq
      exact value_injective heq.symm

theorem squareSum_pos {cs : List ℤ} (hne : ∃ c ∈ cs, c ≠ 0) : 0 < squareSum cs := by
  obtain ⟨c, hc, hzero⟩ := hne
  have hle : c ^ 2 ≤ squareSum cs := by
    refine List.single_le_sum ?_ _ (List.mem_map_of_mem hc)
    simp only [List.mem_map, forall_exists_index, and_imp]
    intro _ d _ hd
    rw [← hd]
    positivity
  exact (by positivity : 0 < c ^ 2).trans_le hle

/-- The sum of the squares of what the components stand for. -/
noncomputable def sumOfSquares (vec : Vec) : ℝ := (vec.map fun x => toReal (Float32.ofBits x) ^ 2).sum

theorem sumOfSquares_toBits {v : List Float32} {cs : List ℤ} {I : Magnitude .binary32}
    (h : List.Forall₂ (ScaledBy I) v cs) :
    sumOfSquares (v.map Float32.toBits) = (cs.map fun c : ℤ => (scaledUnits I c / one .binary32 : ℝ) ^ 2).sum := by
  induction h with
  | nil => rfl
  | @cons x c v cs hx hrest ih =>
      obtain ⟨y, hy, hunits⟩ := hx
      have hsquare : toReal x ^ 2 = (scaledUnits I c / one .binary32 : ℝ) ^ 2 := by
        rw [toReal, hy, ← hunits, div_pow, div_pow]
        congr 1
        by_cases hneg : c < 0 <;> simp [Value.key, Value.signed, hneg]
      rw [sumOfSquares] at ih ⊢
      rw [List.map_cons, List.map_cons, List.sum_cons, List.map_cons, List.sum_cons, ih, ofBits_toBits, hsquare]

theorem unit_norm {v : List Float32} {cs : List ℤ} {I : Magnitude .binary32} (hlen : cs.length ≤ 2 ^ 32)
    (hcs : ∀ c ∈ cs, |c| ≤ 2 ^ 24) (hne : ∃ c ∈ cs, c ≠ 0)
    (hreciprocal : Reciprocal .binary64 .binary32 (norm cs) I.units) (h : List.Forall₂ (ScaledBy I) v cs) :
    |sumOfSquares (v.map Float32.toBits) - 1| ≤ 1 / 2 ^ 19 := by
  obtain ⟨T, hT⟩ : ∃ T, T = sumOfSquares (v.map Float32.toBits) := ⟨_, rfl⟩
  have hTscaled := hT.trans (sumOfSquares_toBits h)
  have hTpos : 0 ≤ T := by
    rw [hT]
    apply List.sum_nonneg
    intro y hy
    obtain ⟨x, -, rfl⟩ := List.mem_map.mp hy
    positivity
  have hS : ((squareSum cs : ℤ) : ℝ) = (cs.map fun c : ℤ => (c : ℝ) ^ 2).sum := by
    rw [squareSum, Int.cast_list_sum, List.map_map]
    congr 1
    apply List.map_congr_left
    intro c _
    exact Int.cast_pow c 2
  have hSpos : (0 : ℝ) < squareSum cs := by exact_mod_cast squareSum_pos hne
  obtain ⟨hlow, hhigh⟩ := hreciprocal.sum_squares (by decide) (Real.sqrt_nonneg _) cs hS hTscaled
  obtain ⟨hNlow, hNhigh⟩ := squaredCounts_bounds hlen hcs
  have hnorm : norm cs ^ 2 = (squaredCounts cs / one .binary64 : ℝ) :=
    Real.sq_sqrt (div_nonneg (Nat.cast_nonneg _) (Nat.cast_nonneg _))
  have hw : roundoff .binary32 = 1 / 2 ^ 24 := roundoff_eq .binary32
  have hu : roundoff .binary64 = 1 / 2 ^ 53 := roundoff_eq .binary64
  rw [hnorm, hw, hu] at hlow hhigh
  have hupper : T ≤ 1 + 1 / 2 ^ 19 := by
    have hchain : (1 - 1 / 2 ^ 53) ^ 2 * (1 - 1 / 2 ^ 21) * T * squareSum cs ≤
        ((1 + 1 / 2 ^ 24) ^ 2 * (1 + 1 / 2 ^ 53)) ^ 2 * squareSum cs := by
      refine le_trans ?_ hhigh
      have hmul := mul_le_mul_of_nonneg_right hNlow (mul_nonneg (sq_nonneg (1 - 1 / 2 ^ 53 : ℝ)) hTpos)
      linarith
    have hcancel := le_of_mul_le_mul_right hchain hSpos
    have hnumbers : ((1 + 1 / 2 ^ 24) ^ 2 * (1 + 1 / 2 ^ 53)) ^ 2 ≤
        (1 - 1 / 2 ^ 53) ^ 2 * (1 - 1 / 2 ^ 21) * (1 + 1 / 2 ^ 19 : ℝ) := by norm_num
    exact le_of_mul_le_mul_left (hcancel.trans hnumbers) (by norm_num)
  have hlower : 1 - 1 / 2 ^ 19 ≤ T := by
    have hchain : ((1 - 1 / 2 ^ 24) ^ 2 * (1 - 1 / 2 ^ 53)) ^ 2 * squareSum cs ≤
        (1 + 1 / 2 ^ 53) ^ 2 * (1 + 1 / 2 ^ 20) * T * squareSum cs := by
      refine hlow.trans ?_
      have hmul := mul_le_mul_of_nonneg_right hNhigh (mul_nonneg (sq_nonneg (1 + 1 / 2 ^ 53 : ℝ)) hTpos)
      linarith
    have hcancel := le_of_mul_le_mul_right hchain hSpos
    have hnumbers : (1 + 1 / 2 ^ 53) ^ 2 * (1 + 1 / 2 ^ 20) * (1 - 1 / 2 ^ 19 : ℝ) ≤
        ((1 - 1 / 2 ^ 24) ^ 2 * (1 - 1 / 2 ^ 53)) ^ 2 := by norm_num
    exact le_of_mul_le_mul_left (hnumbers.trans hcancel) (by norm_num)
  rw [← hT, abs_le]
  constructor <;> linarith

theorem isFinite_of_value {bits : UInt32} {s : Bool} {mag : Magnitude .binary32}
    (h : value (Float32.ofBits bits) = .fin s mag) : IsFinite bits ∧ floatUnits bits = Value.signed s mag := by
  have hfinite : IsFinite bits := by
    obtain hnan | hinf | hfinite := bits_cases bits
    · rw [value_of_isNaN hnan] at h
      cases h
    · rw [value_of_isInfinite hinf] at h
      cases h
    · exact hfinite
  obtain ⟨t, mag', hvalue, hsigned⟩ := value_of_isFinite hfinite
  rw [h] at hvalue
  cases hvalue
  exact ⟨hfinite, hsigned.symm⟩

theorem moderate_scaled {v : List Float32} {cs : List ℤ} {I : Magnitude .binary32}
    (hroom : ∀ c ∈ cs, 2 * (c.natAbs * I.units) ≤ 2 ^ 27 * one .binary32) (h : List.Forall₂ (ScaledBy I) v cs) :
    Moderate (v.map Float32.toBits) := by
  induction h with
  | nil => exact List.forall_mem_nil _
  | @cons x c v cs hx hrest ih =>
      obtain ⟨hle, hroom⟩ := List.forall_mem_cons.mp hroom
      obtain ⟨y, hy, hunits⟩ := hx
      refine List.forall_mem_cons.mpr ⟨?_, ih hroom⟩
      rw [← ofBits_toBits x] at hy
      obtain ⟨hfinite, hsigned⟩ := isFinite_of_value hy
      refine ⟨hfinite, ?_⟩
      rw [hsigned, Value.natAbs_signed, hunits]
      refine (scaledUnits_le I c).trans (hle.trans ?_)
      rw [one_binary32, ← pow_add]
      exact Nat.pow_le_pow_right two_pos (by norm_num)

theorem embed_moderate (hdim : dim ≠ 0) (text : Bytes) :
    Yields (embed dim text) fun vec => vec.length = dim.toNat ∧ Moderate vec := by
  obtain ⟨_, hembed, v, rfl, hlength, hcases⟩ := embed_yields hdim text
  refine ⟨_, hembed, (List.length_map _).trans hlength, ?_⟩
  obtain ⟨-, rfl⟩ | ⟨hne, I, hreciprocal, hscaled⟩ := hcases
  · intro x hx
    rw [List.map_replicate] at hx
    rw [List.eq_of_mem_replicate hx]
    decide +kernel
  · exact moderate_scaled (room_of_reciprocal abs_counts_le hne hreciprocal) hscaled

/-- **An embedding has length one.** For every number of components and every text the embedding returns as many
components, all of them finite and up to `2 ^ 51`. Where every component counts to zero they are all zero, and else
the sum of their squares is one, but for `2^-19`. -/
theorem embedding_has_length_one (dim : UInt32) (hdim : dim ≠ 0) (text : Bytes) :
    ∃ vec, embed dim text = .ok vec ∧ vec.length = dim.toNat ∧ Moderate vec ∧
      ((∀ i < dim.toNat, countAt dim text i = 0) ∧ vec = List.replicate dim.toNat 0 ∨
        (∃ i < dim.toNat, countAt dim text i ≠ 0) ∧ |sumOfSquares vec - 1| ≤ 1 / 2 ^ 19) := by
  obtain ⟨_, hmoderate, hlength, hvec⟩ := embed_moderate hdim text
  obtain ⟨_, hembed, v, rfl, -, hcases⟩ := embed_yields hdim text
  cases hembed.symm.trans hmoderate
  refine ⟨_, hembed, hlength, hvec, ?_⟩
  obtain ⟨hzero, rfl⟩ | ⟨⟨c, hc, hne⟩, I, hreciprocal, hscaled⟩ := hcases
  · refine .inl ⟨fun i hi => hzero _ (List.mem_map_of_mem (List.mem_range.mpr hi)), ?_⟩
    rw [List.map_replicate]
    rfl
  · obtain ⟨i, hi, rfl⟩ := List.mem_map.mp hc
    exact .inr ⟨⟨i, List.mem_range.mp hi, hne⟩,
      unit_norm (length_counts_le text) abs_counts_le ⟨_, hc, hne⟩ hreciprocal hscaled⟩

theorem embedding_has_length_one_sample :
    ∃ vec, embed 8 (ascii "a quick fox") = .ok vec ∧ vec.length = 8 ∧ |sumOfSquares vec - 1| ≤ 1 / 2 ^ 19 := by
  obtain ⟨vec, hembed, hlength, -, hcases⟩ := embedding_has_length_one 8 (by decide) (ascii "a quick fox")
  have hcount : ∃ i < (8 : UInt32).toNat, countAt 8 (ascii "a quick fox") i ≠ 0 := by decide +kernel
  obtain ⟨i, hi, hne⟩ := hcount
  obtain ⟨hzero, -⟩ | ⟨-, hunit⟩ := hcases
  · exact absurd (hzero i hi) hne
  · exact ⟨vec, hembed, hlength, hunit⟩

/-! ### Large components -/

theorem scaledUnits_large {cs : List ℤ} {I : Magnitude .binary32} (hlen : cs.length ≤ 2 ^ 32)
    (hcs : ∀ c ∈ cs, |c| ≤ 2 ^ 24) (hreciprocal : Reciprocal .binary64 .binary32 (norm cs) I.units) {c : ℤ}
    (hc : c ≠ 0) : 2 ^ 74 < scaledUnits I c := by
  have hw : roundoff .binary32 = 1 / 2 ^ 24 := roundoff_eq .binary32
  have hu : roundoff .binary64 = 1 / 2 ^ 53 := roundoff_eq .binary64
  have hlow := hreciprocal.low
  have hnorm : norm cs ≤ (2 : ℝ) ^ 41 := by exact_mod_cast norm_le hlen hcs
  rw [hw, hu, one_binary32] at hlow
  push_cast at hlow
  have hIpos : (0 : ℝ) ≤ I.units := Nat.cast_nonneg _
  have hproduct : (I.units : ℝ) * norm cs ≤ I.units * 2 ^ 41 := mul_le_mul_of_nonneg_left hnorm hIpos
  have hI : (2 : ℝ) ^ 100 ≤ I.units := by linarith
  have habs : (1 : ℝ) ≤ |(c : ℝ)| := by exact_mod_cast Int.one_le_abs hc
  have hproduct' : (I.units : ℝ) ≤ |(c : ℝ)| * I.units := le_mul_of_one_le_left hIpos habs
  have hbound := (scaledUnits_bounds I c).1
  rw [hw] at hbound
  have hlarge : (2 : ℝ) ^ 74 < scaledUnits I c := by linarith
  exact_mod_cast hlarge

theorem exists_large {v : List Float32} {cs : List ℤ} {I : Magnitude .binary32} (h : List.Forall₂ (ScaledBy I) v cs)
    (hlarge : ∃ c ∈ cs, 2 ^ 74 < scaledUnits I c) :
    ∃ x ∈ v.map Float32.toBits, 2 ^ 74 < (floatUnits x).natAbs := by
  induction h with
  | nil => simp at hlarge
  | @cons x c v cs hx hrest ih =>
      obtain ⟨d, hd, hunits⟩ := hlarge
      rw [List.map_cons]
      obtain rfl | hd := List.mem_cons.mp hd
      · obtain ⟨y, hy, hscaled⟩ := hx
        rw [← ofBits_toBits x] at hy
        refine ⟨_, List.mem_cons_self, ?_⟩
        rwa [(isFinite_of_value hy).2, Value.natAbs_signed, hscaled]
      · obtain ⟨y, hy, hlt⟩ := ih ⟨d, hd, hunits⟩
        exact ⟨y, List.mem_cons_of_mem _ hy, hlt⟩

theorem embed_large (hdim : dim ≠ 0) {text : Bytes} (hcount : ∃ i < dim.toNat, countAt dim text i ≠ 0) :
    Yields (embed dim text) fun vec => ∃ x ∈ vec, 2 ^ 74 < (floatUnits x).natAbs := by
  obtain ⟨i, hi, hne⟩ := hcount
  have hmem : countAt dim text i ∈ counts dim text := List.mem_map_of_mem (List.mem_range.mpr hi)
  obtain ⟨_, hembed, v, rfl, -, hcases⟩ := embed_yields hdim text
  refine ⟨_, hembed, ?_⟩
  obtain ⟨hzero, -⟩ | ⟨-, I, hreciprocal, hscaled⟩ := hcases
  · exact absurd (hzero _ hmem) hne
  · exact exists_large hscaled
      ⟨_, hmem, scaledUnits_large (length_counts_le text) abs_counts_le hreciprocal hne⟩

end MockEmbeddingModel

end ToyVdb
