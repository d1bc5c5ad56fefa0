import Mathlib.Algebra.GroupWithZero.Nat
import Mathlib.Data.Finset.Card
import Mathlib.Order.Lattice
import Mathlib.Tactic.Common

/-!
# Bits in words

A list of words of one width as one long row of bits: bit `k` is in word `k / w`, at place `k % w`. There are
no bits behind the last word. The operations are those of a set: all clear, one word replaced, intersection,
and the number of bits that are set.
-/

namespace BitWords

variable {w : Nat} {words : List (BitVec w)}

def bit (words : List (BitVec w)) (k : Nat) : Bool := (words.getD (k / w) 0).getLsbD (k % w)

theorem bit_of_length_le {k : Nat} (h : words.length ≤ k / w) : bit words k = false := by
  rw [bit, List.getD_eq_getElem?_getD, List.getElem?_eq_none h]
  exact BitVec.getLsbD_zero

theorem bit_replicate_zero (n k : Nat) : bit (List.replicate n (0 : BitVec w)) k = false := by
  rw [bit, List.getD_eq_getElem?_getD, List.getElem?_replicate]
  split_ifs
  · exact BitVec.getLsbD_zero
  · exact BitVec.getLsbD_zero

theorem bit_set {i : Nat} (hi : i < words.length) (x : BitVec w) (k : Nat) :
    bit (words.set i x) k = if k / w = i then x.getLsbD (k % w) else bit words k := by
  rw [bit, List.getD_eq_getElem?_getD, List.getElem?_set]
  by_cases hk : k / w = i
  · rw [if_pos hk.symm, if_pos hk, if_pos hi]
    rfl
  · rw [if_neg (Ne.symm hk), if_neg hk, bit, List.getD_eq_getElem?_getD]

/-! ### Single bits -/

theorem bit_set_word (hw : 0 < w) {i : Nat} (hi : i / w < words.length) {x : BitVec w} {b : Bool}
    (hx : ∀ j < w, x.getLsbD j = if j = i % w then b else (words.getD (i / w) 0).getLsbD j) (k : Nat) :
    bit (words.set (i / w) x) k = if k = i then b else bit words k := by
  rw [bit_set hi]
  by_cases hword : k / w = i / w
  · rw [if_pos hword, hx _ (Nat.mod_lt k hw)]
    -- in the same word the positions agree exactly when the places do
    have hplace : k % w = i % w ↔ k = i := by
      refine ⟨fun hplace => ?_, fun heq => heq ▸ rfl⟩
      rw [← Nat.div_add_mod k w, hword, hplace, Nat.div_add_mod]
    rw [bit, hword]
    exact if_congr hplace rfl rfl
  · have hne : k ≠ i := fun heq => hword (heq ▸ rfl)
    rw [if_neg hword, if_neg hne]

theorem getLsbD_one_shiftLeft {i j : Nat} (hi : i < w) : (1#w <<< i).getLsbD j = decide (j = i) := by
  rw [← BitVec.twoPow_eq, BitVec.getLsbD_twoPow, decide_eq_true hi, Bool.true_and]
  exact decide_eq_decide.mpr eq_comm

theorem bit_set_or (hw : 0 < w) {i : Nat} (hi : i / w < words.length) (k : Nat) :
    bit (words.set (i / w) (words.getD (i / w) 0 ||| 1#w <<< (i % w))) k =
      if k = i then true else bit words k := by
  refine bit_set_word hw hi (fun j _ => ?_) k
  rw [BitVec.getLsbD_or, getLsbD_one_shiftLeft (Nat.mod_lt i hw)]
  by_cases hj : j = i % w
  · rw [if_pos hj, decide_eq_true hj, Bool.or_true]
  · rw [if_neg hj, decide_eq_false hj, Bool.or_false]

theorem bit_set_and_not (hw : 0 < w) {i : Nat} (hi : i / w < words.length) (k : Nat) :
    bit (words.set (i / w) (words.getD (i / w) 0 &&& ~~~(1#w <<< (i % w)))) k =
      if k = i then false else bit words k := by
  refine bit_set_word hw hi (fun j hjw => ?_) k
  rw [BitVec.getLsbD_and, BitVec.getLsbD_not, getLsbD_one_shiftLeft (Nat.mod_lt i hw), decide_eq_true hjw]
  by_cases hj : j = i % w
  · rw [if_pos hj, decide_eq_true hj, Bool.not_true, Bool.and_false, Bool.and_false]
  · rw [if_neg hj, decide_eq_false hj, Bool.not_false, Bool.and_true, Bool.and_true]

/-! ### Intersection -/

/-- Word by word, and nothing where the other has no words. -/
def inter (words other : List (BitVec w)) : List (BitVec w) :=
  List.zipWith (· &&& ·) words other ++ List.replicate (words.length - other.length) 0

@[simp] theorem length_inter (words other : List (BitVec w)) : (inter words other).length = words.length := by
  rw [inter, List.length_append, List.length_zipWith, List.length_replicate]
  omega

theorem bit_inter (words other : List (BitVec w)) (k : Nat) :
    bit (inter words other) k = (bit words k && bit other k) := by
  rcases Nat.lt_or_ge (k / w) (min words.length other.length) with hboth | hnot
  · have hword : k / w < words.length := hboth.trans_le (Nat.min_le_left _ _)
    have hother : k / w < other.length := hboth.trans_le (Nat.min_le_right _ _)
    have hlen : k / w < (List.zipWith (· &&& ·) words other).length := by rwa [List.length_zipWith]
    simp only [bit, inter, List.getD_eq_getElem?_getD, List.getElem?_append_left hlen]
    simp [hword, hother]
  · -- one of the two has no such word, and neither has the intersection a bit in it
    have hnone : bit (inter words other) k = false := by
      have hlen : (List.zipWith (· &&& ·) words other).length ≤ k / w := by rwa [List.length_zipWith]
      rw [bit, inter, List.getD_eq_getElem?_getD, List.getElem?_append_right hlen, List.getElem?_replicate]
      split_ifs
      · exact BitVec.getLsbD_zero
      · exact BitVec.getLsbD_zero
    rw [hnone]
    rcases min_le_iff.mp hnot with hword | hother
    · rw [bit_of_length_le hword, Bool.false_and]
    · rw [bit_of_length_le hother, Bool.and_false]

/-! ### Counting -/

def popcount (words : List (BitVec w)) : Nat := (words.map fun x => x.cpop.toNat).sum

theorem cpop_eq_countP (x : BitVec w) : x.cpop.toNat = (List.range w).countP x.getLsbD := by
  have hcount : ∀ n, x.cpopNatRec n 0 = (List.range n).countP x.getLsbD := by
    intro n
    induction n with
    | zero => rfl
    | succ n ih =>
        rw [BitVec.cpopNatRec_succ, BitVec.cpopNatRec_add, ih, List.range_succ, List.countP_append]
        cases hbit : x.getLsbD n <;> simp [hbit]
  rw [BitVec.toNat_cpop, hcount]

theorem bit_cons_of_lt {x : BitVec w} {k : Nat} (hk : k < w) : bit (x :: words) k = x.getLsbD k := by
  rw [bit, Nat.div_eq_of_lt hk, Nat.mod_eq_of_lt hk]
  rfl

theorem bit_cons_add {x : BitVec w} (hw : 0 < w) (k : Nat) : bit (x :: words) (w + k) = bit words k := by
  rw [bit, Nat.add_div_left _ hw, Nat.add_mod_left]
  rfl

theorem popcount_eq_countP (hw : 0 < w) (words : List (BitVec w)) :
    popcount words = (List.range (w * words.length)).countP (bit words) := by
  induction words with
  | nil => rfl
  | cons x words ih =>
      have hfirst : (List.range w).countP (bit (x :: words)) = (List.range w).countP x.getLsbD :=
        List.countP_congr fun k hk => by rw [bit_cons_of_lt (List.mem_range.mp hk)]
      have hrest : bit (x :: words) ∘ (w + ·) = bit words := by
        funext k
        exact bit_cons_add hw k
      rw [popcount, List.map_cons, List.sum_cons, List.length_cons, Nat.mul_succ, Nat.add_comm (w * _),
        List.range_add, List.countP_append, List.countP_map, hfirst, hrest, ← ih, cpop_eq_countP]
      rfl

theorem popcount_le (words : List (BitVec w)) : popcount words ≤ w * words.length := by
  induction words with
  | nil => exact Nat.zero_le _
  | cons x words ih =>
      have hx := x.toNat_cpop_le
      rw [popcount, List.map_cons, List.sum_cons, List.length_cons, Nat.mul_succ]
      rw [popcount] at ih
      omega

/-- The words of a finite set have as many bits set as it has members. -/
theorem popcount_eq_card (hw : 0 < w) {S : Finset Nat} (hS : ∀ k, k ∈ S ↔ bit words k = true) :
    popcount words = S.card := by
  have hmem : ((List.range (w * words.length)).filter (bit words)).toFinset = S := by
    ext k
    rw [List.mem_toFinset, List.mem_filter, List.mem_range, hS]
    refine ⟨fun hk => hk.2, fun hk => ⟨?_, hk⟩⟩
    by_contra hge
    have hbeyond : words.length ≤ k / w := (Nat.le_div_iff_mul_le hw).mpr (by rw [Nat.mul_comm]; omega)
    rw [bit_of_length_le hbeyond] at hk
    cases hk
  rw [popcount_eq_countP hw, List.countP_eq_length_filter, ← hmem,
    List.toFinset_card_of_nodup (List.nodup_range.filter _)]

end BitWords
