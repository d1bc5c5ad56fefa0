import ToyVdb.Filter.Order
import ToyVdb.Filter.Rounding
import ToyVdb.Engine.Search

/-!
# Filters on integers

A filter compares integers as doubles. The conversion keeps their order, so a filter can only go wrong on two
integers that differ and are converted to the same double: they count as equal. As long as no stored integer
is confused with one of the filter in this way, filters and filtered searches follow the order of integers.

Filters have nothing to do with scores, but the runs are over linearly ordered ones: no distance is undefined.
-/

namespace ToyVdb

open ThreeWay

/-! ### Comparisons -/

/-- The relation a comparison operator stands for. -/
def Cmp.Holds : Cmp → Int → Int → Prop
  | .eq, a, b => a = b
  | .ne, a, b => a ≠ b
  | .lt, a, b => a < b
  | .le, a, b => a ≤ b
  | .gt, a, b => b < a
  | .ge, a, b => b ≤ a

instance : (op : Cmp) → (a b : Int) → Decidable (op.Holds a b)
  | .eq, a, b => inferInstanceAs (Decidable (a = b))
  | .ne, a, b => inferInstanceAs (Decidable (a ≠ b))
  | .lt, a, b => inferInstanceAs (Decidable (a < b))
  | .le, a, b => inferInstanceAs (Decidable (a ≤ b))
  | .gt, a, b => inferInstanceAs (Decidable (b < a))
  | .ge, a, b => inferInstanceAs (Decidable (b ≤ a))

theorem Filter.evalCmp_sign (op : Cmp) (a b : Int) :
    Filter.evalCmp (sign a b) op = decide (op.Holds a b) := by
  rw [Bool.eq_iff_iff, decide_eq_true_iff]
  cases op <;> simp [Filter.evalCmp, Cmp.Holds, sign_zero_iff, sign_lt_zero_iff, sign_le_zero_iff,
    zero_lt_sign_iff, zero_le_sign_iff]

theorem compare_int64 (a b : Int64) :
    compare (.int64 a) (.int64 b) =
      some (sign (Double.key (Double.ofInt64 a)) (Double.key (Double.ofInt64 b))) := by
  rw [compare_numbers rfl rfl, Double.cmp_eq_sign (Double.isNaN_ofInt64 a) (Double.isNaN_ofInt64 b)]

theorem compare_int64_eq_zero_iff (a b : Int64) :
    compare (.int64 a) (.int64 b) = some 0 ↔ Double.ofInt64 a = Double.ofInt64 b := by
  rw [compare_int64, Option.some.injEq, sign_zero_iff]
  exact ⟨Double.key_ofInt64_inj, fun heq => by rw [heq]⟩

/-- A stored integer and one of a filter are the same, or the conversion tells them apart. -/
def Distinguished (a b : Int64) : Prop := a = b ∨ Double.ofInt64 a ≠ Double.ofInt64 b

theorem Distinguished.sign_eq {a b : Int64} (h : Distinguished a b) :
    sign (Double.key (Double.ofInt64 a)) (Double.key (Double.ofInt64 b)) = sign a.toInt b.toInt := by
  rcases h with rfl | hne
  · rw [(sign_zero_iff _ _).mpr rfl, (sign_zero_iff _ _).mpr rfl]
  · have hkey : Double.key (Double.ofInt64 a) ≠ Double.key (Double.ofInt64 b) :=
      fun heq => hne (Double.key_ofInt64_inj heq)
    rcases lt_trichotomy a.toInt b.toInt with hlt | heq | hgt
    · have hkeylt := (Double.key_ofInt64_mono hlt.le).lt_of_ne hkey
      rw [sign, sign, if_pos hlt, if_pos hkeylt]
    · exact absurd (by rw [Int64.toInt_inj.mp heq]) hne
    · have hkeygt := (Double.key_ofInt64_mono hgt.le).lt_of_ne hkey.symm
      rw [sign, sign, if_neg hgt.le.not_gt, if_neg hkeygt.le.not_gt, if_pos hgt, if_pos hkeygt]

/-! ### Leaves -/

/-- A filter leaf on integers. -/
inductive IntFilter
  | cmp (op : Cmp) (b : Int64)
  | isIn (values : List Int64)

namespace IntFilter

def filter (key : Bytes) : IntFilter → Filter
  | .cmp op b => .cmp key op (.int64 b)
  | .isIn values => .isIn key (values.map .int64)

/-- Whether an integer passes, by the order of integers. -/
def passes : IntFilter → Int64 → Bool
  | .cmp op b, a => decide (op.Holds a.toInt b.toInt)
  | .isIn values, a => decide (a ∈ values)

/-- The integers of the filter are not confused with the given one. -/
def Distinguishes : IntFilter → Int64 → Prop
  | .cmp _ b, a => Distinguished a b
  | .isIn values, a => a ∈ values ∨ ∀ v ∈ values, Double.ofInt64 a ≠ Double.ofInt64 v

/-- Whether a metadata value passes. -/
def passesValue (f : IntFilter) : MetaValue → Bool
  | .int64 a => f.passes a
  | _ => false

end IntFilter

variable {m : Metadata} {key : Bytes} {a : Int64}

theorem matchesMeta_cmp (hfound : m.lookup key = some (.int64 a)) (op : Cmp) (b : Int64) :
    (Filter.cmp key op (.int64 b)).matchesMeta m
      = Filter.evalCmp (sign (Double.key (Double.ofInt64 a)) (Double.key (Double.ofInt64 b))) op := by
  rw [Filter.matchesMeta, hfound]
  simp only [compare_int64]

theorem matchesMeta_isIn (hfound : m.lookup key = some (.int64 a)) (values : List Int64) :
    (Filter.isIn key (values.map .int64)).matchesMeta m = true ↔
      ∃ v ∈ values, Double.ofInt64 a = Double.ofInt64 v := by
  rw [Filter.matchesMeta, hfound]
  simp [compare_int64_eq_zero_iff]

theorem IntFilter.Distinguishes.matchesMeta_eq {f : IntFilter} (h : f.Distinguishes a)
    (hfound : m.lookup key = some (.int64 a)) : (f.filter key).matchesMeta m = f.passes a := by
  cases f with
  | cmp op b =>
      rw [filter, matchesMeta_cmp hfound, Distinguished.sign_eq h, Filter.evalCmp_sign]
      rfl
  | isIn values =>
      rw [filter, Bool.eq_iff_iff, matchesMeta_isIn hfound, passes, decide_eq_true_iff]
      constructor
      · rintro ⟨v, hv, heq⟩
        exact h.resolve_right fun hnone => hnone v hv heq
      · intro hmem
        exact ⟨a, hmem, rfl⟩

/-- All comparisons with an integer are exact if and only if it is not confused with the stored one. -/
theorem comparisons_exact_iff (key : Bytes) (a b : Int64) :
    (∀ m : Metadata, m.lookup key = some (.int64 a) → ∀ op, (Filter.cmp key op (.int64 b)).matchesMeta m
      = decide (op.Holds a.toInt b.toInt)) ↔ Distinguished a b := by
  constructor
  · intro hexact
    by_cases hsame : Double.ofInt64 a = Double.ofInt64 b
    · -- Then they are found equal.
      have hfound : ((∅ : Metadata).insert key (.int64 a)).lookup key = some (.int64 a) :=
        Finmap.lookup_insert _
      have heq := hexact _ hfound .eq
      rw [matchesMeta_cmp hfound, hsame, (sign_zero_iff _ _).mpr rfl] at heq
      exact .inl (Int64.toInt_inj.mp (of_decide_eq_true heq.symm))
    · exact .inr hsame
  · intro h m hfound op
    exact IntFilter.Distinguishes.matchesMeta_eq (f := .cmp op b) h hfound

theorem membership_exact_iff (key : Bytes) (a : Int64) (values : List Int64) :
    (∀ m : Metadata, m.lookup key = some (.int64 a) →
      (Filter.isIn key (values.map .int64)).matchesMeta m = decide (a ∈ values)) ↔
      a ∈ values ∨ ∀ v ∈ values, Double.ofInt64 a ≠ Double.ofInt64 v := by
  constructor
  · intro hexact
    by_cases hmem : a ∈ values
    · exact .inl hmem
    · refine .inr fun v hv heq => hmem ?_
      have hfound : ((∅ : Metadata).insert key (.int64 a)).lookup key = some (.int64 a) :=
        Finmap.lookup_insert _
      have hmatches := (matchesMeta_isIn hfound values).mpr ⟨v, hv, heq⟩
      rw [hexact _ hfound] at hmatches
      exact of_decide_eq_true hmatches
  · intro h m hfound
    exact IntFilter.Distinguishes.matchesMeta_eq (f := .isIn values) h hfound

/-! ### Searches -/

namespace Engine

/-- A slot that an integer filter should let through. -/
def integerEligible (s : VectorStore) (key : Bytes) (f : IntFilter) (id : Nat) : Bool :=
  s.isLive id && (((s.metadata id).getD ∅).lookup key).elim false f.passesValue

/-- What is stored under the key are integers, and the filter confuses none of them with its own. -/
def IntegersUnder (s : VectorStore) (key : Bytes) (f : IntFilter) : Prop :=
  ∀ id m v, s.isLive id = true → s.metadata id = some m → m.lookup key = some v →
    ∃ a, v = .int64 a ∧ f.Distinguishes a

theorem IntegersUnder.eligible_eq {s : VectorStore} {f : IntFilter} (h : IntegersUnder s key f) :
    eligible s (some (f.filter key)) = integerEligible s key f := by
  funext id
  rw [eligible, integerEligible]
  cases hlive : s.isLive id with
  | false => rfl
  | true =>
      cases hmeta : s.metadata id with
      | none => simp
      | some m =>
          cases hfound : m.lookup key with
          | none => cases f <;> simp [IntFilter.filter, Filter.matchesMeta, hfound]
          | some v =>
              obtain ⟨a, rfl, hdistinguishes⟩ := h id m v hlive hmeta hfound
              simp [hdistinguishes.matchesMeta_eq hfound, hfound, IntFilter.passesValue]

variable {Score : Type} [LinearOrder Score]

/-- Filters on integers are exact where they do not confuse a stored integer with one of their own, and only
there. Where they confuse none, every search with such a filter, in every state an engine reaches, returns
nothing that does not pass by the order of integers, and an exact one leaves nothing out that does. -/
theorem integer_filters_exact_iff (cfg : EngineConfig Score) (disk : Option Disk) (e₀ : Engine)
    (hcreate : create cfg disk = .ok e₀) (calls : List (IterOrder × Mutation)) (key : Bytes) :
    (∀ a b : Int64, (∀ m : Metadata, m.lookup key = some (.int64 a) → ∀ op,
      (Filter.cmp key op (.int64 b)).matchesMeta m = decide (op.Holds a.toInt b.toInt)) ↔
        (a = b ∨ Double.ofInt64 a ≠ Double.ofInt64 b)) ∧
    (∀ (a : Int64) (values : List Int64), (∀ m : Metadata, m.lookup key = some (.int64 a) →
      (Filter.isIn key (values.map .int64)).matchesMeta m = decide (a ∈ values)) ↔
        (a ∈ values ∨ ∀ v ∈ values, Double.ofInt64 a ≠ Double.ofInt64 v)) ∧
    ∀ f : IntFilter, IntegersUnder (e₀.run cfg calls).store key f → ∀ (query : Vec) (k ef : Nat),
      query.length = cfg.dim.toNat →
      ∃ hits, (e₀.run cfg calls).search cfg query k (some (f.filter key)) ef = .ok hits ∧
        Sound cfg.metric (e₀.run cfg calls).store query
          (integerEligible (e₀.run cfg calls).store key f) hits ∧
        (cfg.index = .flat → Exact cfg.metric (e₀.run cfg calls).store query
          (integerEligible (e₀.run cfg calls).store key f) k hits) := by
  refine ⟨comparisons_exact_iff key, membership_exact_iff key, fun f hintegers query k ef hquery => ?_⟩
  have hwf := (wf_of_create hcreate).run calls
  rw [← hintegers.eligible_eq]
  cases hkind : cfg.index with
  | flat =>
      obtain ⟨hits, hsearch, hexact, -⟩ := hwf.search_flat hkind hquery k (some (f.filter key)) ef
      exact ⟨hits, hsearch, hexact.toSound, fun _ => hexact⟩
  | hnsw =>
      obtain ⟨hits, hsearch, hsound⟩ := hwf.search_sound hquery k (some (f.filter key)) ef
      exact ⟨hits, hsearch, hsound, fun hflat => by cases hflat⟩

/-- Two entries with the year they are of. -/
def yearCalls : List (IterOrder × Mutation) :=
  [(.byKey, .write (.insert (ascii "a") [0] ((∅ : Metadata).insert (ascii "year") (.int64 2023)))),
    (.byKey, .write (.insert (ascii "b") [0] ((∅ : Metadata).insert (ascii "year") (.int64 2024))))]

/-- Years are far from being confused: a search for what is older than 2024 finds the first entry only. -/
theorem integer_filters_exact_sample :
    ∃ hits, ((⟨{ dim := 1 }, .flat {}, none⟩ : Engine).run (sampleConfig .flat ⟨1, 1, 64, fun _ => 0⟩)
      yearCalls).search (sampleConfig .flat ⟨1, 1, 64, fun _ => 0⟩) [0] 2
        (some (Filter.cmp (ascii "year") .lt (.int64 2024))) 0 = .ok hits ∧
      hits.length = 1 ∧ ∀ hit ∈ hits, hit.id = 0 := by
  have hintegers : IntegersUnder ((⟨{ dim := 1 }, .flat {}, none⟩ : Engine).run
      (sampleConfig .flat ⟨1, 1, 64, fun _ => 0⟩) yearCalls).store (ascii "year") (.cmp .lt 2024) := by
    intro id m v _ hmeta hfound
    match id with
    | 0 =>
        cases hmeta
        cases hfound.symm.trans (Finmap.lookup_insert _)
        exact ⟨2023, rfl, .inr (by decide +kernel)⟩
    | 1 =>
        cases hmeta
        cases hfound.symm.trans (Finmap.lookup_insert _)
        exact ⟨2024, rfl, .inl rfl⟩
    | id + 2 => cases hmeta
  obtain ⟨hits, hsearch, -, hexact⟩ := (integer_filters_exact_iff (sampleConfig .flat ⟨1, 1, 64, fun _ => 0⟩) none _
    rfl yearCalls (ascii "year")).2.2 (.cmp .lt 2024) hintegers [0] 2 0 rfl
  refine ⟨hits, hsearch, (hexact rfl).length_eq.trans (by decide +kernel), fun hit hhit => ?_⟩
  have hadmit := (hexact rfl).admitted hit hhit
  generalize hit.id = id at hadmit
  match id with
  | 0 => rfl
  | 1 => exact absurd hadmit (by decide +kernel)
  | id + 2 => cases hadmit

/-- The first integer that is not a double is taken for the one before it. -/
theorem integer_filter_confuses :
    (Filter.eq (ascii "n") (.int64 9007199254740993)).matchesMeta
      ((∅ : Metadata).insert (ascii "n") (.int64 9007199254740992)) = true ∧
      ¬ Cmp.eq.Holds (9007199254740992 : Int64).toInt (9007199254740993 : Int64).toInt := by
  decide +kernel

end Engine

end ToyVdb
