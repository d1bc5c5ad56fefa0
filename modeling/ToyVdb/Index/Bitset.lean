import ToyVdb.Lib.BitWords

/-!
# The allowed set

A fixed-size bitset over 64-bit words: bit `i` is set when internal id `i` passed the metadata filter. The
number of words follows the size, so every position below the size has its word.
-/

namespace ToyVdb

structure Bitset where
  size : Nat
  words : List (BitVec 64)
  length_words : words.length = (size + 63) / 64
deriving DecidableEq

namespace Bitset

/-- A bitset with every bit clear; also what `resize` leaves behind. -/
def ofSize (n : Nat) : Bitset := ⟨n, List.replicate ((n + 63) / 64) 0, List.length_replicate⟩

/-- The source does not check the position; its callers keep it below the size. -/
def set (b : Bitset) (i : Nat) : Bitset where
  size := b.size
  words := b.words.modify (i >>> 6) (· ||| 1#64 <<< (i &&& 63))
  length_words := (List.length_modify ..).trans b.length_words

def test (b : Bitset) (i : Nat) : Bool :=
  if i ≥ b.size then false else (b.words.getD (i >>> 6) 0 >>> (i &&& 63)) &&& 1 ≠ 0#64

/-! ### What a bit says -/

theorem word_lt (b : Bitset) {i : Nat} (h : i < b.size) : i >>> 6 < b.words.length := by
  rw [b.length_words, Nat.shiftRight_eq_div_pow]
  omega

theorem and_sixtyThree (i : Nat) : i &&& 63 = i % 64 := Nat.and_two_pow_sub_one_eq_mod i 6

theorem shift_and_one (w : BitVec 64) (j : Nat) : (w >>> j) &&& 1 ≠ 0#64 ↔ w.getLsbD j = true := by
  constructor
  · intro h
    by_contra hbit
    apply h
    apply BitVec.eq_of_getLsbD_eq
    intro i _
    rw [BitVec.getLsbD_and, BitVec.getLsbD_ushiftRight, BitVec.getLsbD_zero]
    cases i with
    | zero => simpa using hbit
    | succ i => simp
  · intro hbit h
    have hzero : ((w >>> j) &&& 1#64).getLsbD 0 = false := by
      change ((w >>> j) &&& 1).getLsbD 0 = false
      rw [h, BitVec.getLsbD_zero]
    simp [hbit] at hzero

theorem test_eq (b : Bitset) {i : Nat} (h : i < b.size) :
    b.test i = BitWords.bit b.words i := by
  rw [test, if_neg (Nat.not_le.mpr h), Nat.shiftRight_eq_div_pow, and_sixtyThree, Bool.eq_iff_iff,
    decide_eq_true_iff, shift_and_one]
  rfl

theorem test_of_size_le (b : Bitset) {i : Nat} (h : b.size ≤ i) : b.test i = false := if_pos h

theorem test_ofSize (n i : Nat) : (ofSize n).test i = false := by
  rcases Nat.lt_or_ge i n with hlt | hge
  · rw [test_eq _ hlt]
    exact BitWords.bit_replicate_zero _ _
  · exact test_of_size_le _ hge

theorem words_set (b : Bitset) (i : Nat) :
    (b.set i).words = b.words.set (i / 64) (b.words.getD (i / 64) 0 ||| 1#64 <<< (i % 64)) := by
  change b.words.modify (i >>> 6) (· ||| 1#64 <<< (i &&& 63)) = _
  rw [Nat.shiftRight_eq_div_pow, and_sixtyThree, List.modify_eq_set]
  rfl

theorem test_set (b : Bitset) {i : Nat} (h : i < b.size) (j : Nat) :
    (b.set i).test j = (decide (j = i) || b.test j) := by
  have hword : i / 64 < b.words.length := Nat.shiftRight_eq_div_pow i 6 ▸ b.word_lt h
  rcases Nat.lt_or_ge j b.size with hlt | hge
  · rw [test_eq (b.set i) hlt, test_eq b hlt, words_set, BitWords.bit_set_or (by decide) hword]
    by_cases hj : j = i
    · rw [if_pos hj, decide_eq_true hj, Bool.true_or]
    · rw [if_neg hj, decide_eq_false hj, Bool.false_or]
  · have hne : j ≠ i := by omega
    rw [test_of_size_le _ (show (b.set i).size ≤ j from hge), test_of_size_le _ hge, decide_eq_false hne]
    rfl

end Bitset

end ToyVdb
