import ToyVdb.Metadata
import ToyVdb.Lib.ThreeWay
import Mathlib.Data.List.Lex
import Mathlib.Order.BooleanAlgebra.Basic

/-!
# The comparison of metadata values as an order

Values are comparable within three kinds: numbers, strings and bools. Within each the comparison is that of
a linear order, with one exception. A NaN is not below and not above any number, so `compare` finds it equal
to every number; with a NaN in the middle, values that differ are both equal to it.
-/

namespace ToyVdb

open ThreeWay

/-! ### The three kinds -/

namespace Double

/-- What `compare` makes of two numbers. -/
def cmp (x y : UInt64) : Int := if lt x y then -1 else if lt y x then 1 else 0

theorem cmp_of_isNaN {x y : UInt64} (h : isNaN x = true ∨ isNaN y = true) : cmp x y = 0 := by
  rcases h with h | h <;> simp [cmp, lt, h]

theorem cmp_eq_sign {x y : UInt64} (hx : isNaN x = false) (hy : isNaN y = false) :
    cmp x y = sign (key x) (key y) := by
  simp [cmp, lt, sign, hx, hy]

theorem cmp_swap (x y : UInt64) : cmp y x = -cmp x y := by
  cases hx : isNaN x with
  | true => rw [cmp_of_isNaN (.inl hx), cmp_of_isNaN (.inr hx), neg_zero]
  | false =>
      cases hy : isNaN y with
      | true => rw [cmp_of_isNaN (.inl hy), cmp_of_isNaN (.inr hy), neg_zero]
      | false => rw [cmp_eq_sign hx hy, cmp_eq_sign hy hx, sign_swap]

end Double

theorem bytes_lt_iff (s t : Bytes) : s < t ↔ s.map UInt8.toNat < t.map UInt8.toNat := by
  induction s generalizing t with
  | nil => cases t <;> simp
  | cons b s ih =>
      cases t with
      | nil => simp
      | cons c t => simp [List.cons_lt_cons_iff, ih, UInt8.lt_iff_toNat_lt, UInt8.toNat_inj]

theorem sign_bytes (s t : Bytes) :
    (if s < t then -1 else if t < s then 1 else 0 : Int) = sign (s.map UInt8.toNat) (t.map UInt8.toNat) := by
  simp only [sign, bytes_lt_iff]
  congr

theorem sign_bool (p q : Bool) : (if p = q then 0 else if p then 1 else -1 : Int) = sign p q := by
  cases p <;> cases q <;> rfl

/-- Everything `compare` can do: it compares two numbers, two strings or two bools, and nothing else. -/
inductive Compared : MetaValue → MetaValue → Option Int → Prop
  | numbers {a b : MetaValue} {x y : UInt64} (ha : asNumber a = some x) (hb : asNumber b = some y) :
      Compared a b (some (Double.cmp x y))
  | strings (s t : Bytes) : Compared (.string s) (.string t)
      (some (sign (s.map UInt8.toNat) (t.map UInt8.toNat)))
  | bools (p q : Bool) : Compared (.bool p) (.bool q) (some (sign p q))
  | incomparable {a b : MetaValue} (hab : compare a b = none) (hba : compare b a = none) : Compared a b none

theorem compare_numbers {a b : MetaValue} {x y : UInt64} (ha : asNumber a = some x)
    (hb : asNumber b = some y) :
    compare a b = some (Double.cmp x y) := by
  cases a <;> cases b <;> cases ha <;> cases hb <;> rfl

theorem compare_strings (s t : Bytes) :
    compare (.string s) (.string t) = some (sign (s.map UInt8.toNat) (t.map UInt8.toNat)) := by
  rw [← sign_bytes]
  rfl

theorem compare_bools (p q : Bool) : compare (.bool p) (.bool q) = some (sign p q) := by
  rw [← sign_bool]
  rfl

theorem compared (a b : MetaValue) : Compared a b (compare a b) := by
  cases ha : asNumber a with
  | some x =>
      cases hb : asNumber b with
      | some y =>
          rw [compare_numbers ha hb]
          exact .numbers ha hb
      | none =>
          have hab : compare a b = none := by cases a <;> cases ha <;> cases b <;> cases hb <;> rfl
          have hba : compare b a = none := by cases a <;> cases ha <;> cases b <;> cases hb <;> rfl
          rw [hab]
          exact .incomparable hab hba
  | none =>
      cases a with
      | int64 v => cases ha
      | double bits => cases ha
      | string s =>
          cases b with
          | string t =>
              rw [compare_strings]
              exact .strings s t
          | _ => exact .incomparable rfl rfl
      | bool p =>
          cases b with
          | bool q =>
              rw [compare_bools]
              exact .bools p q
          | _ => exact .incomparable rfl rfl

/-! ### Swapped operands -/

theorem compare_swap {a b : MetaValue} {n : Int} (h : compare a b = some n) : compare b a = some (-n) := by
  have hcompared := compared a b
  rw [h] at hcompared
  cases hcompared with
  | numbers ha hb => rw [compare_numbers hb ha, Double.cmp_swap]
  | strings s t => rw [compare_strings, sign_swap]
  | bools p q => rw [compare_bools, sign_swap]

theorem compare_eq_none_iff (a b : MetaValue) : compare a b = none ↔ compare b a = none := by
  constructor
  · intro hab
    cases hba : compare b a with
    | none => rfl
    | some n => rw [compare_swap hba] at hab; cases hab
  · intro hba
    cases hab : compare a b with
    | none => rfl
    | some n => rw [compare_swap hab] at hba; cases hba

/-! ### Transitivity -/

/-- Three values in a row compare as in an order: the first is not above the last if neither of the steps goes
down, and is equal to it if neither goes anywhere. -/
def TransitiveAt (a b c : MetaValue) : Prop :=
  ∀ m n, compare a b = some m → compare b c = some n → m ≤ 0 → n ≤ 0 →
    ∃ l, compare a c = some l ∧ l ≤ 0 ∧ (m = 0 → n = 0 → l = 0)

/-- A NaN between two numbers that are not equal. -/
def NaNBetween (a b c : MetaValue) : Prop :=
  ∃ x y z, asNumber a = some x ∧ asNumber b = some y ∧ asNumber c = some z ∧ Double.isNaN y = true ∧
    Double.isNaN x = false ∧ Double.isNaN z = false ∧ Double.key x ≠ Double.key z

theorem sign_trans {α : Type} [LinearOrder α] {x y z : α} (hxy : sign x y ≤ 0) (hyz : sign y z ≤ 0) :
    sign x z ≤ 0 ∧ (sign x y = 0 → sign y z = 0 → sign x z = 0) := by
  rw [sign_le_zero_iff] at hxy hyz ⊢
  simp only [sign_zero_iff]
  exact ⟨hxy.trans hyz, fun hxy hyz => hxy.trans hyz⟩

theorem Double.cmp_trans {x y z : UInt64}
    (h : isNaN y = true → isNaN x = false → isNaN z = false → key x = key z)
    (hxy : cmp x y ≤ 0) (hyz : cmp y z ≤ 0) : cmp x z ≤ 0 ∧ (cmp x y = 0 → cmp y z = 0 → cmp x z = 0) := by
  by_cases hends : isNaN x = true ∨ isNaN z = true
  · rw [cmp_of_isNaN hends]
    exact ⟨le_rfl, fun _ _ => rfl⟩
  · rw [not_or, Bool.not_eq_true, Bool.not_eq_true] at hends
    cases hy : isNaN y with
    | true =>
        have hzero : cmp x z = 0 := by
          rw [cmp_eq_sign hends.1 hends.2, sign_zero_iff]
          exact h hy hends.1 hends.2
        rw [hzero]
        exact ⟨le_rfl, fun _ _ => rfl⟩
    | false =>
        rw [cmp_eq_sign hends.1 hy] at hxy ⊢
        rw [cmp_eq_sign hy hends.2] at hyz ⊢
        rw [cmp_eq_sign hends.1 hends.2]
        exact sign_trans hxy hyz

theorem transitiveAt_of_not {a b c : MetaValue} (h : ¬ NaNBetween a b c) : TransitiveAt a b c := by
  intro m n hab hbc hm hn
  have hcompared := compared a b
  rw [hab] at hcompared
  cases hcompared with
  | @numbers _ _ x y ha hb =>
      have hcompared := compared b c
      rw [hbc] at hcompared
      cases hcompared with
      | @numbers _ _ y' z hb' hc =>
          obtain rfl : y = y' := Option.some.inj (hb.symm.trans hb')
          refine ⟨_, compare_numbers ha hc, Double.cmp_trans (fun hy hx hz => ?_) hm hn⟩
          by_contra hne
          exact h ⟨x, y, z, ha, hb, hc, hy, hx, hz, hne⟩
      | strings => cases hb
      | bools => cases hb
  | strings s t =>
      have hcompared := compared (.string t) c
      rw [hbc] at hcompared
      cases hcompared with
      | numbers ht => cases ht
      | strings _ u => exact ⟨_, compare_strings s u, sign_trans hm hn⟩
  | bools p q =>
      have hcompared := compared (.bool q) c
      rw [hbc] at hcompared
      cases hcompared with
      | numbers hq => cases hq
      | bools _ r => exact ⟨_, compare_bools p r, sign_trans hm hn⟩

theorem NaNBetween.compare_eq {a b c : MetaValue} (h : NaNBetween a b c) :
    compare a b = some 0 ∧ compare b c = some 0 ∧ compare a c ≠ some 0 := by
  obtain ⟨x, y, z, ha, hb, hc, hy, hx, hz, hne⟩ := h
  rw [compare_numbers ha hb, compare_numbers hb hc, compare_numbers ha hc, Double.cmp_of_isNaN (.inr hy),
    Double.cmp_of_isNaN (.inl hy), Double.cmp_eq_sign hx hz]
  refine ⟨rfl, rfl, fun heq => hne ?_⟩
  exact (sign_zero_iff _ _).mp (Option.some.inj heq)

/-! ### Equality filters -/

theorem matchesMeta_eq_iff {m : Metadata} {key : Bytes} {found : MetaValue}
    (hfound : m.lookup key = some found)
    (v : MetaValue) : (Filter.eq key v).matchesMeta m = true ↔ compare found v = some 0 := by
  rw [Filter.eq, Filter.matchesMeta, hfound]
  dsimp only
  cases compare found v with
  | none => simp
  | some n => simp [Filter.evalCmp]

/-- Values that are both found equal to one that is stored are equal to each other. -/
def EqFiltersAgree (x stored y : MetaValue) : Prop :=
  ∀ (m : Metadata) (key : Bytes), m.lookup key = some stored → (Filter.eq key x).matchesMeta m = true →
    (Filter.eq key y).matchesMeta m = true → compare x y = some 0

theorem eqFiltersAgree_of_not {a b c : MetaValue} (h : ¬ NaNBetween a b c) : EqFiltersAgree a b c := by
  intro m key hstored hx hy
  have hab := compare_swap ((matchesMeta_eq_iff hstored a).mp hx)
  obtain ⟨l, hac, -, hzero⟩ := transitiveAt_of_not h _ _ hab ((matchesMeta_eq_iff hstored c).mp hy)
    (by decide) le_rfl
  rw [hac, hzero rfl rfl]

/-! ### A consistent ordering -/

/-- The laws of an ordering at three values. -/
structure OrderedAt (a b c : MetaValue) : Prop where
  none_iff : compare a b = none ↔ compare b a = none
  swap : ∀ n, compare a b = some n → compare b a = some (-n)
  trans : TransitiveAt a b c
  eq_filters : EqFiltersAgree a b c

/-- `compare` keeps the laws of an ordering at all values but those with a NaN between different numbers. -/
theorem compare_is_ordering_iff (a b c : MetaValue) : OrderedAt a b c ↔ ¬ NaNBetween a b c := by
  constructor
  · intro h hbetween
    obtain ⟨hab, hbc, hac⟩ := hbetween.compare_eq
    obtain ⟨l, hl, -, hzero⟩ := h.trans 0 0 hab hbc le_rfl le_rfl
    rw [hl, hzero rfl rfl] at hac
    exact hac rfl
  · intro h
    exact ⟨compare_eq_none_iff a b, fun n => compare_swap, transitiveAt_of_not h, eqFiltersAgree_of_not h⟩

/-- Both 1 and 2 are equal to a NaN. -/
theorem nan_breaks_ordering : ¬ OrderedAt (.int64 1) (.double 0x7FF8000000000000) (.int64 2) := by
  intro h
  obtain ⟨l, hl, -, hzero⟩ := h.trans 0 0 (by decide) (by decide) le_rfl le_rfl
  rw [hzero rfl rfl] at hl
  exact absurd hl (by decide)

end ToyVdb
