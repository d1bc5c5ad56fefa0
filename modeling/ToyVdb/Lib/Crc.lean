import Mathlib

/-!
# Cyclic redundancy checks

A shift register with feedback divides the message that is fed into it, one bit at a time, by a polynomial
over the field with two elements: what is in the register is the remainder. Here the register is a word whose
bit `i` is the coefficient of `X^i`, the feedback is the generator less its leading term, and a message is
the polynomial of its bits, the first one at the highest power.

From that follow the two facts a checksum is used for and compared by: a burst of errors that is no longer
than the register changes the remainder, and two coprime generators agree on a message exactly where the
remainder by their product fits the register.
-/

namespace Crc

open Polynomial

variable {w : Nat}

/-! ### Words and messages as polynomials -/

def bitValue (bit : Bool) : ZMod 2 := if bit then 1 else 0

@[simp] theorem bitValue_true : bitValue true = 1 := rfl

@[simp] theorem bitValue_false : bitValue false = 0 := rfl

theorem bitValue_xor (a b : Bool) : bitValue (a ^^ b) = bitValue a + bitValue b := by
  cases a <;> cases b <;> decide

theorem bitValue_injective : Function.Injective bitValue := by
  intro a b h
  cases a <;> cases b <;> simp_all

noncomputable def word (c : BitVec w) : (ZMod 2)[X] :=
  ∑ i ∈ Finset.range w, C (bitValue (c.getLsbD i)) * X ^ i

@[simp] theorem coeff_word (c : BitVec w) (k : Nat) : (word c).coeff k = bitValue (c.getLsbD k) := by
  simp only [word, finsetSum_coeff, coeff_C_mul, coeff_X_pow, mul_ite, mul_one, mul_zero, Finset.sum_ite_eq,
    Finset.mem_range]
  split_ifs with hk
  · rfl
  · rw [BitVec.getLsbD_of_ge c k (Nat.not_lt.mp hk)]
    rfl

theorem word_injective : Function.Injective (word : BitVec w → (ZMod 2)[X]) := by
  intro a b h
  apply BitVec.eq_of_getLsbD_eq
  intro i _
  have hcoeff := congrArg (fun p => p.coeff i) h
  simp only [coeff_word] at hcoeff
  exact bitValue_injective hcoeff

theorem word_xor (a b : BitVec w) : word (a ^^^ b) = word a + word b := by
  ext k
  rw [coeff_add, coeff_word, coeff_word, coeff_word, BitVec.getLsbD_xor, bitValue_xor]

theorem degree_word_lt (c : BitVec w) : (word c).degree < w := by
  rw [degree_lt_iff_coeff_zero]
  intro k hk
  rw [coeff_word, BitVec.getLsbD_of_ge c k hk]
  rfl

theorem word_shiftLeft_one (c : BitVec w) (hw : 0 < w) :
    word (c <<< 1) = X * word c + C (bitValue c.msb) * X ^ w := by
  ext k
  rw [coeff_add, coeff_C_mul, coeff_X_pow, coeff_word, BitVec.getLsbD_shiftLeft]
  cases k with
  | zero => simp [hw.ne]
  | succ j =>
      rw [coeff_X_mul, coeff_word]
      rcases Nat.lt_trichotomy (j + 1) w with hlt | heq | hgt
      · simp [hlt, hlt.ne]
      · subst heq
        have hmsb : c.msb = c.getLsbD j := BitVec.msb_eq_getLsbD_last c
        rw [hmsb, if_pos rfl, mul_one, CharTwo.add_self_eq_zero]
        simp
      · simp [BitVec.getLsbD_of_ge c j (by omega), hgt.ne', Nat.not_lt.mpr hgt.le]

/-- The first bit is the highest coefficient. -/
noncomputable def ofBits (bits : List Bool) : (ZMod 2)[X] :=
  bits.foldl (fun p bit => X * p + C (bitValue bit)) 0

@[simp] theorem ofBits_nil : ofBits [] = 0 := rfl

theorem ofBits_concat (bits : List Bool) (bit : Bool) :
    ofBits (bits ++ [bit]) = X * ofBits bits + C (bitValue bit) := by
  rw [ofBits, List.foldl_append]
  rfl

theorem ofBits_append (xs ys : List Bool) : ofBits (xs ++ ys) = ofBits xs * X ^ ys.length + ofBits ys := by
  induction ys using List.reverseRecOn with
  | nil => simp
  | append_singleton ys bit ih =>
      rw [← List.append_assoc, ofBits_concat, ofBits_concat, ih, List.length_append,
        List.length_singleton, pow_succ]
      ring

theorem ofBits_replicate_false (n : Nat) : ofBits (List.replicate n false) = 0 := by
  induction n with
  | zero => rfl
  | succ n ih => rw [List.replicate_succ', ofBits_concat, ih, mul_zero, zero_add, bitValue_false, C_0]

theorem coeff_ofBits (bits : List Bool) (k : Nat) :
    (ofBits bits).coeff k = bitValue (bits.reverse[k]?.getD false) := by
  induction bits using List.reverseRecOn generalizing k with
  | nil => simp
  | append_singleton bits bit ih =>
      rw [ofBits_concat, coeff_add, List.reverse_append, List.reverse_singleton, List.singleton_append]
      cases k with
      | zero => simp
      | succ k => simp [coeff_X_mul, ih]

theorem degree_ofBits_lt (bits : List Bool) : (ofBits bits).degree < bits.length := by
  rw [degree_lt_iff_coeff_zero]
  intro k hk
  rw [coeff_ofBits, List.getElem?_eq_none (by rwa [List.length_reverse])]
  rfl

theorem ofBits_injective {xs ys : List Bool} (hlen : xs.length = ys.length)
    (h : ofBits xs = ofBits ys) : xs = ys := by
  apply List.reverse_injective
  apply List.ext_getElem (by rw [List.length_reverse, List.length_reverse, hlen])
  intro k hx hy
  have hcoeff := congrArg (fun p => p.coeff k) h
  simp only [coeff_ofBits, List.getElem?_eq_getElem hx, List.getElem?_eq_getElem hy,
    Option.getD_some] at hcoeff
  exact bitValue_injective hcoeff

/-! ### The register -/

/-- The polynomial a register with this feedback divides by. -/
noncomputable def generator (g : BitVec w) : (ZMod 2)[X] := X ^ w + word g

theorem monic_generator (g : BitVec w) : (generator g).Monic := monic_X_pow_add (degree_word_lt g)

theorem degree_generator (g : BitVec w) : (generator g).degree = w := by
  rw [generator, degree_add_eq_left_of_degree_lt]
  · exact degree_X_pow w
  · rw [degree_X_pow]
    exact degree_word_lt g

/-- A bit enters at the top, and what falls out is fed back. -/
def feed (g c : BitVec w) (bit : Bool) : BitVec w := if c.msb ^^ bit then (c <<< 1) ^^^ g else c <<< 1

theorem word_feed (g c : BitVec w) (hw : 0 < w) (bit : Bool) :
    word (feed g c bit) =
      X * word c + C (bitValue bit) * X ^ w + C (bitValue (c.msb ^^ bit)) * generator g := by
  have hmsb : bitValue c.msb = bitValue (c.msb ^^ bit) + bitValue bit := by
    cases c.msb <;> cases bit <;> decide
  rw [feed, generator]
  split_ifs with hout
  · rw [word_xor, word_shiftLeft_one c hw, hmsb, hout, bitValue_true, C_add, C_1]
    ring
  · rw [word_shiftLeft_one c hw, hmsb, Bool.eq_false_of_not_eq_true hout, bitValue_false, C_0,
      zero_add, zero_mul, add_zero]

theorem modByMonic_eq_of_dvd {p q r : (ZMod 2)[X]} (hq : q.Monic) (hdvd : q ∣ p - r)
    (hlt : r.degree < q.degree) :
    p %ₘ q = r := by
  obtain ⟨t, ht⟩ := hdvd
  exact (div_modByMonic_unique t r hq ⟨by linear_combination -ht, hlt⟩).2

theorem dvd_sub_modByMonic (p q : (ZMod 2)[X]) : q ∣ p - p %ₘ q :=
  ⟨p /ₘ q, by linear_combination -(modByMonic_add_div p q)⟩

/-- What is in the register is the remainder of what was there and the message behind it. -/
theorem word_foldl_feed (g c : BitVec w) (hw : 0 < w) (bits : List Bool) :
    word (bits.foldl (feed g) c) = (word c * X ^ bits.length + ofBits bits * X ^ w) %ₘ generator g := by
  refine (modByMonic_eq_of_dvd (monic_generator g) ?_ (by rw [degree_generator]; exact degree_word_lt _)).symm
  induction bits using List.reverseRecOn with
  | nil => simp
  | append_singleton bits bit ih =>
      rw [List.foldl_append, List.foldl_cons, List.foldl_nil, word_feed _ _ hw, ofBits_concat,
        List.length_append,
        List.length_singleton]
      obtain ⟨q, hq⟩ := ih
      refine ⟨X * q - C (bitValue ((bits.foldl (feed g) c).msb ^^ bit)), ?_⟩
      linear_combination X * hq

/-- Feeding zeros shifts. -/
def shift (g c : BitVec w) : BitVec w := feed g c false

theorem word_iterate_shift (g c : BitVec w) (hw : 0 < w) (n : Nat) :
    word ((shift g)^[n] c) = (word c * X ^ n) %ₘ generator g := by
  have hfold : (shift g)^[n] c = (List.replicate n false).foldl (feed g) c := by
    induction n generalizing c with
    | zero => rfl
    | succ n ih =>
        rw [Function.iterate_succ_apply, ih]
        rfl
  rw [hfold, word_foldl_feed g c hw, List.length_replicate, ofBits_replicate_false, zero_mul, add_zero]

theorem iterate_shift_xor (g a b : BitVec w) (hw : 0 < w) (n : Nat) :
    (shift g)^[n] (a ^^^ b) = (shift g)^[n] a ^^^ (shift g)^[n] b := by
  apply word_injective
  rw [word_xor, word_iterate_shift g _ hw, word_iterate_shift g _ hw, word_iterate_shift g _ hw,
    word_xor, add_mul,
    add_modByMonic]

/-- A message of at most the width of the register may as well be added to it first. -/
theorem foldl_feed_eq (g c m : BitVec w) (hw : 0 < w) (bits : List Bool)
    (hm : word m * X ^ bits.length = ofBits bits * X ^ w) :
    bits.foldl (feed g) c = (shift g)^[bits.length] (c ^^^ m) := by
  apply word_injective
  rw [word_foldl_feed g c hw, word_iterate_shift g _ hw, word_xor, add_mul, hm]

/-! ### Reflected registers -/

/-- The register with its bits the other way round, as programs keep it. -/
def shiftDown (g c : BitVec w) : BitVec w := if c.getLsbD 0 then g ^^^ (c >>> 1) else c >>> 1

theorem reverse_ushiftRight_one (c : BitVec w) : (c >>> 1).reverse = c.reverse <<< 1 := by
  apply BitVec.eq_of_getLsbD_eq
  intro i hi
  rw [BitVec.getLsbD_reverse, BitVec.getMsbD_ushiftRight, BitVec.getLsbD_shiftLeft, BitVec.getLsbD_reverse]
  simp [hi]

theorem reverse_xor (a b : BitVec w) : (a ^^^ b).reverse = a.reverse ^^^ b.reverse := by
  apply BitVec.eq_of_getLsbD_eq
  intro i _
  rw [BitVec.getLsbD_reverse, BitVec.getMsbD_xor, BitVec.getLsbD_xor, BitVec.getLsbD_reverse,
    BitVec.getLsbD_reverse]

theorem reverse_injective : Function.Injective (BitVec.reverse : BitVec w → BitVec w) :=
  Function.LeftInverse.injective fun _ => BitVec.reverse_reverse_eq

theorem reverse_shiftDown (g c : BitVec w) : (shiftDown g c).reverse = shift g.reverse c.reverse := by
  rw [shiftDown, shift, feed, BitVec.msb_reverse, Bool.xor_false]
  split_ifs
  · rw [reverse_xor, reverse_ushiftRight_one, BitVec.xor_comm]
  · exact reverse_ushiftRight_one c

theorem reverse_iterate_shiftDown (g c : BitVec w) (n : Nat) :
    ((shiftDown g)^[n] c).reverse = (shift g.reverse)^[n] c.reverse :=
  Function.Semiconj.iterate_right (reverse_shiftDown g) n c

theorem iterate_shiftDown_xor (g a b : BitVec w) (hw : 0 < w) (n : Nat) :
    (shiftDown g)^[n] (a ^^^ b) = (shiftDown g)^[n] a ^^^ (shiftDown g)^[n] b := by
  apply reverse_injective
  rw [reverse_xor, reverse_iterate_shiftDown, reverse_iterate_shiftDown, reverse_iterate_shiftDown,
    reverse_xor,
    iterate_shift_xor _ _ _ hw]

theorem iterate_shiftDown_of_low (g c : BitVec w) (n : Nat) (hlow : ∀ i < n, c.getLsbD i = false) :
    (shiftDown g)^[n] c = c >>> n := by
  induction n with
  | zero => simp
  | succ n ih =>
      rw [Function.iterate_succ_apply', ih fun i hi => hlow i (Nat.lt_succ_of_lt hi), shiftDown,
        BitVec.getLsbD_ushiftRight, Nat.add_zero, hlow n (Nat.lt_succ_self n), if_neg Bool.false_ne_true,
        BitVec.shiftRight_add]

/-- So only the first n bits need to be divided. -/
theorem iterate_shiftDown_split (g c : BitVec w) (hw : 0 < w) (n : Nat) :
    (shiftDown g)^[n] c = (shiftDown g)^[n] ((c.setWidth n).setWidth w) ^^^ (c >>> n) := by
  have hsplit : c = (c.setWidth n).setWidth w ^^^ ((c >>> n) <<< n) := by
    apply BitVec.eq_of_getLsbD_eq
    intro i hi
    rw [BitVec.getLsbD_xor, BitVec.getLsbD_setWidth, BitVec.getLsbD_setWidth, BitVec.getLsbD_shiftLeft,
      BitVec.getLsbD_ushiftRight]
    by_cases hlow : i < n
    · simp [hi, hlow]
    · simp [hi, hlow, Nat.add_sub_cancel' (Nat.not_lt.mp hlow)]
  have hhigh : ((c >>> n) <<< n) >>> n = c >>> n := by
    apply BitVec.eq_of_getLsbD_eq
    intro i hi
    simp only [BitVec.getLsbD_ushiftRight, BitVec.getLsbD_shiftLeft, Nat.add_sub_cancel_left]
    by_cases hout : n + i < w
    · simp [hout]
    · simp [hout, BitVec.getLsbD_of_ge c (n + i) (Nat.not_lt.mp hout)]
  have hlow : ∀ i < n, ((c >>> n) <<< n).getLsbD i = false := fun i hi => by
    rw [BitVec.getLsbD_shiftLeft, decide_eq_true hi]
    simp
  calc (shiftDown g)^[n] c
      = (shiftDown g)^[n] ((c.setWidth n).setWidth w ^^^ ((c >>> n) <<< n)) := congrArg _ hsplit
    _ = (shiftDown g)^[n] ((c.setWidth n).setWidth w) ^^^ (shiftDown g)^[n] ((c >>> n) <<< n) :=
        iterate_shiftDown_xor g _ _ hw n
    _ = (shiftDown g)^[n] ((c.setWidth n).setWidth w) ^^^ (c >>> n) := by
        rw [iterate_shiftDown_of_low g ((c >>> n) <<< n) n hlow, hhigh]

/-! ### Bursts -/

theorem isCoprime_X {g : BitVec w} (hw : 0 < w) (hodd : g.getLsbD 0 = true) : IsCoprime (generator g) X := by
  obtain ⟨q, hq⟩ : X ∣ generator g - 1 := by
    rw [X_dvd_iff, generator, coeff_sub, coeff_add, coeff_X_pow, coeff_word, hodd, if_neg hw.ne,
      coeff_one_zero,
      bitValue_true, zero_add, sub_self]
  exact ⟨1, -q, by linear_combination hq⟩

/-- Messages that differ in a burst no longer than the register are told apart. -/
theorem eq_of_foldl_feed_eq {g : BitVec w} (hw : 0 < w) (hodd : g.getLsbD 0 = true) (c : BitVec w)
    {front xs ys back : List Bool} (hlen : xs.length = ys.length) (hburst : xs.length ≤ w)
    (h : (front ++ xs ++ back).foldl (feed g) c = (front ++ ys ++ back).foldl (feed g) c) : xs = ys := by
  have hword := congrArg word h
  rw [word_foldl_feed g c hw, word_foldl_feed g c hw, ← sub_eq_zero, ← sub_modByMonic,
    modByMonic_eq_zero_iff_dvd (monic_generator g)] at hword
  have hdvd : generator g ∣ (ofBits xs - ofBits ys) * X ^ (back.length + w) := by
    convert hword using 1
    simp only [ofBits_append, List.length_append, hlen]
    ring
  have hcop : IsCoprime (generator g) (X ^ (back.length + w)) := (isCoprime_X hw hodd).pow_right
  have hlt : (ofBits xs - ofBits ys).degree < (generator g).degree := by
    have hx := (degree_ofBits_lt xs).trans_le (Nat.cast_le.mpr hburst)
    have hy := (degree_ofBits_lt ys).trans_le (Nat.cast_le.mpr (hlen ▸ hburst))
    rw [degree_generator]
    exact (degree_sub_le _ _).trans_lt (max_lt hx hy)
  have hzero : ofBits xs - ofBits ys = 0 := by
    by_contra hne
    exact (monic_generator g).not_dvd_of_degree_lt hne hlt (hcop.dvd_of_dvd_mul_right hdvd)
  exact ofBits_injective hlen (sub_eq_zero.mp hzero)

/-! ### Two generators -/

/-- Two coprime generators leave the same remainder exactly where their product leaves a small one. -/
theorem modByMonic_eq_iff {g h : BitVec w} (hcop : IsCoprime (generator g) (generator h)) (p : (ZMod 2)[X]) :
    p %ₘ generator g = p %ₘ generator h ↔ (p %ₘ (generator g * generator h)).degree < w := by
  have hmonic := (monic_generator g).mul (monic_generator h)
  have hdegree : (w : WithBot Nat) ≤ (generator g * generator h).degree := by
    rw [(monic_generator h).degree_mul, degree_generator, degree_generator, ← Nat.cast_add]
    exact Nat.cast_le.mpr (Nat.le_add_right w w)
  constructor
  · intro heq
    have hlt : (p %ₘ generator g).degree < w := by
      rw [← degree_generator g]
      exact degree_modByMonic_lt p (monic_generator g)
    have hdvd : generator g * generator h ∣ p - p %ₘ generator g := by
      apply hcop.mul_dvd (dvd_sub_modByMonic p _)
      rw [heq]
      exact dvd_sub_modByMonic p _
    rwa [modByMonic_eq_of_dvd hmonic hdvd (hlt.trans_le hdegree)]
  · intro hlt
    have hdvd := dvd_sub_modByMonic p (generator g * generator h)
    have hg := modByMonic_eq_of_dvd (monic_generator g) ((dvd_mul_right _ _).trans hdvd)
      (by rwa [degree_generator])
    have hh := modByMonic_eq_of_dvd (monic_generator h) ((dvd_mul_left _ _).trans hdvd)
      (by rwa [degree_generator])
    rw [hg, hh]

end Crc
