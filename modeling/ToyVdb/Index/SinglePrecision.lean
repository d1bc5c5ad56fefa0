import ToyVdb.Index.L2
import ToyVdb.Index.Cosine
import ToyVdb.Index.Embedding
import ToyVdb.Index.Hits

/-!
# Scores in single precision

Where a metric suits the components it is given, its scores are numbers, and of the two zeros only one occurs. Such
scores are in a linear order, so what holds of an index over any linear order of scores holds of the metrics the
source has.
-/

namespace ToyVdb

open Ieee

/-! ### Ordered floats -/

/-- Floats that are numbers, without one of the two zeros. -/
@[ext]
structure Number (zero : Bool) where
  float : Float32
  isNumber : value float ≠ .nan ∧ value float ≠ .fin zero 0

theorem value_eq_of_key {F : Float.Model.Format} {zero : Bool} {a b : Value F} (ha : a ≠ .nan ∧ a ≠ .fin zero 0)
    (hb : b ≠ .nan ∧ b ≠ .fin zero 0) (hkey : a.key = b.key) : a = b := by
  have hlt : ∀ (s : Bool) (m : Magnitude F), Value.signed s m < top F ∧ -(top F : ℤ) < Value.signed s m := by
    intro s m
    have htop := m.lt_top
    cases s <;> simp [Value.signed] <;> omega
  cases a with
  | nan => exact absurd rfl ha.1
  | inf s =>
      cases b with
      | nan => exact absurd rfl hb.1
      | inf t =>
          have htop := top_pos F
          cases s <;> cases t <;> simp [Value.key] at hkey ⊢ <;> omega
      | fin t y =>
          have hy := hlt t y
          cases s <;> simp [Value.key] at hkey <;> omega
  | fin s x =>
      cases b with
      | nan => exact absurd rfl hb.1
      | inf t =>
          have hx := hlt s x
          cases t <;> simp [Value.key] at hkey <;> omega
      | fin t y =>
          have hunits : x = y := by
            apply Magnitude.ext
            rw [← Value.natAbs_signed s x, ← Value.natAbs_signed t y]
            exact congrArg Int.natAbs hkey
          subst hunits
          by_cases hzero : x = 0
          · -- only the other zero is left
            subst hzero
            have hs : s ≠ zero := fun heq => ha.2 (heq ▸ rfl)
            have ht : t ≠ zero := fun heq => hb.2 (heq ▸ rfl)
            rw [Bool.eq_not.mpr hs, Bool.eq_not.mpr ht]
          · have hne := Value.signed_ne_zero hzero true
            cases s <;> cases t <;> simp [Value.key, Value.signed] at hkey hne ⊢ <;> omega

noncomputable instance (zero : Bool) : LinearOrder (Number zero) :=
  LinearOrder.lift' (fun x => (value x.float).key) fun x y hkey =>
    Number.ext (value_injective (value_eq_of_key x.isNumber y.isNumber hkey))

theorem Number.le_iff {zero : Bool} (x y : Number zero) : x ≤ y ↔ toReal x.float ≤ toReal y.float := by
  have hone : (0 : ℝ) < one .binary32 := by exact_mod_cast one_pos _
  rw [toReal, toReal, div_le_div_iff_of_pos_right hone, Int.cast_le]
  rfl

theorem Number.lt_iff {zero : Bool} (x y : Number zero) : x.float < y.float ↔ x < y := by
  rw [Ieee.lt_iff]
  exact ⟨fun h => h.2.2, fun h => ⟨x.isNumber.1, y.isNumber.1, h⟩⟩

/-! ### The scores of each metric -/

namespace MetricKind

/-- The components for which the scores are numbers: for the squared distance all that are finite, for products
those up to `2 ^ 51`. -/
def Suits : MetricKind → UInt32 → Prop
  | l2, x => IsFinite x
  | cosine, x => IsFinite x ∧ (floatUnits x).natAbs ≤ 2 ^ 200
  | dot, x => IsFinite x ∧ (floatUnits x).natAbs ≤ 2 ^ 200

instance : (kind : MetricKind) → DecidablePred kind.Suits
  | l2, x => inferInstanceAs (Decidable (IsFinite x))
  | cosine, x => inferInstanceAs (Decidable (IsFinite x ∧ _))
  | dot, x => inferInstanceAs (Decidable (IsFinite x ∧ _))

/-- The sign of the zero that is never a score. -/
def missingZero : MetricKind → Bool
  | l2 => true
  | cosine => true
  | dot => false

end MetricKind

theorem maxFloat_isNumber (zero : Bool) : value maxFloat ≠ .nan ∧ value maxFloat ≠ .fin zero 0 := by
  obtain ⟨s, mag, hvalue, hsigned⟩ := @value_of_isFinite 0x7F7FFFFF (by decide)
  have hvalue' : value maxFloat = .fin s mag := hvalue
  rw [hvalue']
  refine ⟨by simp, fun heq => ?_⟩
  cases heq
  rw [Value.signed_zero] at hsigned
  exact absurd hsigned (by decide +kernel)

namespace MetricKind

theorem distance_isNumber (kind : MetricKind) {u v : Vec} (hu : ∀ x ∈ u, kind.Suits x)
    (hv : ∀ x ∈ v, kind.Suits x) :
    value (kind.metric.distance u v) ≠ .nan ∧ value (kind.metric.distance u v) ≠ .fin kind.missingZero 0 := by
  cases kind with
  | l2 =>
      change value (L2.distance u v) ≠ _ ∧ value (L2.distance u v) ≠ _
      constructor
      · rw [L2.value_distance_eq hu hv]
        exact Value.capped_ne_nan _
      · rw [L2.value_distance]
        exact Value.foldl_add_ne_neg_zero _ _
  | cosine =>
      obtain ⟨mag, hvalue, -⟩ := Cosine.distance_within hu hv
      change value (Cosine.distance u v) ≠ _ ∧ value (Cosine.distance u v) ≠ _
      rw [hvalue]
      simp [missingZero]
  | dot =>
      have hpairs : ∀ pair ∈ List.zip u v, Value.Within (2 ^ 200) (value (Float32.ofBits pair.1)) ∧
          Value.Within (2 ^ 200) (value (Float32.ofBits pair.2)) := by
        intro pair hpair
        obtain ⟨hx, hy⟩ := List.of_mem_zip (a := pair.1) (b := pair.2) hpair
        exact ⟨within_of_moderate hu hx, within_of_moderate hv hy⟩
      have hne := (sumOfProducts_within hpairs).ne_nan
      have hzero : value (sumOfProducts (List.zip u v)) ≠ .fin true 0 := by
        rw [sumOfProducts.value_eq]
        exact Value.foldl_add_ne_neg_zero _ _
      change value (Dot.distance u v) ≠ _ ∧ value (Dot.distance u v) ≠ _
      rw [Dot.distance_eq, value_neg]
      cases hsum : value (sumOfProducts (List.zip u v)) with
      | nan => exact absurd hsum hne
      | inf s => simp [Value.neg]
      | fin s mag =>
          rw [hsum] at hzero
          simp only [Value.neg, missingZero]
          refine ⟨by simp, fun heq => hzero ?_⟩
          injection heq with hsign hmag
          rw [hmag, show s = true by simpa using hsign]

/-- The metric, with scores in a linear order. -/
noncomputable def ordered (kind : MetricKind) : Metric (Number kind.missingZero) where
  distance u v :=
    if h : value (kind.metric.distance u v) ≠ .nan ∧ value (kind.metric.distance u v) ≠ .fin kind.missingZero 0
    then ⟨kind.metric.distance u v, h⟩
    else ⟨maxFloat, maxFloat_isNumber _⟩
  maxScore := ⟨maxFloat, maxFloat_isNumber _⟩

theorem ordered_embeds (kind : MetricKind) : kind.ordered.Embeds kind.metric Number.float kind.Suits where
  lt_iff := Number.lt_iff
  distance_eq u v hu hv := congrArg Number.float (dif_pos (kind.distance_isNumber hu hv))
  maxScore_eq := by cases kind <;> rfl

end MetricKind

/-! ### Hits -/

section Hits

variable (metric : Metric Float32) (s : VectorStore) (query : Vec) (allow : Nat → Bool)

/-- Distinct admitted slots with their current distances, which are numbers, closest first. -/
structure SoundNumbers (hits : List (SearchResult Float32)) : Prop where
  nodup : (hits.map SearchResult.id).Nodup
  admitted : ∀ hit ∈ hits, allow hit.id = true
  score_eq : ∀ hit ∈ hits, hit.score = metric.distance query (s.get hit.id)
  number : ∀ hit ∈ hits, hit.score.isNaN = false
  ascending : hits.Pairwise fun a b => toReal a.score ≤ toReal b.score

/-- As many as there are up to k, and nothing left out is closer. -/
structure ExactNumbers (k : Nat) (hits : List (SearchResult Float32)) : Prop
    extends SoundNumbers metric s query allow hits where
  length_eq : hits.length = min k (candidates s allow).length
  nearest : ∀ id, allow id = true → id ∉ hits.map SearchResult.id →
    ∀ hit ∈ hits, toReal hit.score ≤ toReal (metric.distance query (s.get id))

end Hits

section Hits

variable {kind : MetricKind} {s : VectorStore} {query : Vec} {allow : Nat → Bool}
  {hits : List (SearchResult (Number kind.missingZero))}

theorem map_id_map (φ : Number kind.missingZero → Float32) :
    (hits.map (SearchResult.map φ)).map SearchResult.id = hits.map SearchResult.id := by
  rw [List.map_map]
  rfl

theorem Sound.numbers (h : Sound kind.ordered s query allow hits) (hs : s.AllIn kind.Suits)
    (hquery : ∀ x ∈ query, kind.Suits x) :
    SoundNumbers kind.metric s query allow (hits.map (SearchResult.map Number.float)) where
  nodup := by
    rw [map_id_map]
    exact h.nodup
  admitted := by
    intro hit hhit
    obtain ⟨hit, hmem, rfl⟩ := List.mem_map.mp hhit
    exact h.admitted hit hmem
  score_eq := by
    intro hit hhit
    obtain ⟨hit, hmem, rfl⟩ := List.mem_map.mp hhit
    have hscore := congrArg Number.float (h.score_eq hit hmem)
    exact hscore.trans (kind.ordered_embeds.distance_eq query _ hquery (hs.get hit.id))
  number := by
    intro hit hhit
    obtain ⟨hit, -, rfl⟩ := List.mem_map.mp hhit
    rw [Bool.eq_false_iff, Ne, isNaN_iff]
    exact hit.score.isNumber.1
  ascending := by
    rw [List.pairwise_map]
    exact h.ascending.imp fun hle => (Number.le_iff _ _).mp hle

theorem Exact.numbers {k : Nat} (h : Exact kind.ordered s query allow k hits) (hs : s.AllIn kind.Suits)
    (hquery : ∀ x ∈ query, kind.Suits x) :
    ExactNumbers kind.metric s query allow k (hits.map (SearchResult.map Number.float)) where
  toSoundNumbers := h.toSound.numbers hs hquery
  length_eq := by
    rw [List.length_map]
    exact h.length_eq
  nearest := by
    intro id hid hout hit hhit
    rw [map_id_map] at hout
    obtain ⟨hit, hmem, rfl⟩ := List.mem_map.mp hhit
    have hle := (Number.le_iff _ _).mp (h.nearest id hid hout hit hmem)
    rwa [kind.ordered_embeds.distance_eq query _ hquery (hs.get id)] at hle

theorem ExactNumbers.le_of_not_mem_take {metric : Metric Float32} {k : Nat} {hits : List (SearchResult Float32)}
    (h : ExactNumbers metric s query allow k hits) {i : Nat} {hit : SearchResult Float32}
    (hhit : hits[i]? = some hit) {id : Nat} (hid : allow id = true)
    (hlater : id ∉ (hits.take i).map SearchResult.id) :
    toReal hit.score ≤ toReal (metric.distance query (s.get id)) := by
  by_cases hmem : id ∈ hits.map SearchResult.id
  · obtain ⟨other, hother, rfl⟩ := List.mem_map.mp hmem
    rw [← h.score_eq other hother]
    obtain ⟨j, hj⟩ := List.mem_iff_getElem?.mp hother
    obtain ⟨hi', rfl⟩ := List.getElem?_eq_some_iff.mp hhit
    obtain ⟨hj', rfl⟩ := List.getElem?_eq_some_iff.mp hj
    rcases lt_trichotomy i j with hlt | rfl | hgt
    · exact List.pairwise_iff_getElem.mp h.ascending i j hi' hj' hlt
    · exact le_rfl
    · exfalso
      apply hlater
      refine List.mem_map_of_mem (List.mem_take_iff_getElem.mpr ⟨j, by omega, rfl⟩)
  · exact h.nearest id hid hmem hit (List.mem_of_getElem? hhit)

end Hits

end ToyVdb
