import ToyVdb.Index.Bitset
import ToyVdb.Lib.BitWords
import ToyVdb.Lib.Outcome
import ToyVdb.Types

/-!
# The bitset as a finite set

The bitset with all its operations and as it is stored: sizes and positions are of 64 bits, and nothing but
the operations ties the words to the size. A history of operations is run on the words, and stands for a
finite set of naturals; the two agree as long as the last resize left the words that its size needs, which
the rounding up in 64 bits does not do for the last 63 sizes.
-/

namespace ToyVdb

structure RawBitset where
  words : List (BitVec 64) := []
  size : UInt64 := 0
deriving DecidableEq

namespace RawBitset

/-! ### Operations -/

def resize (_ : RawBitset) (n : UInt64) : RawBitset := ⟨List.replicate ((n + 63) / 64).toNat 0, n⟩

def clear (b : RawBitset) : RawBitset := { b with words := List.replicate b.words.length 0 }

/-- The word of a position is accessed without a check. -/
def modifyWord (b : RawBitset) (i : UInt64) (f : BitVec 64 → BitVec 64) : Except Error RawBitset :=
  match b.words[(i >>> 6).toNat]? with
  | none => .error .outOfRange
  | some word => .ok { b with words := b.words.set (i >>> 6).toNat (f word) }

def set (b : RawBitset) (i : UInt64) : Except Error RawBitset :=
  b.modifyWord i (· ||| 1#64 <<< (i &&& 63).toNat)

def reset (b : RawBitset) (i : UInt64) : Except Error RawBitset :=
  b.modifyWord i (· &&& ~~~(1#64 <<< (i &&& 63).toNat))

def test (b : RawBitset) (i : UInt64) : Except Error Bool :=
  if i ≥ b.size then .ok false
  else match b.words[(i >>> 6).toNat]? with
    | none => .error .outOfRange
    | some word => .ok ((word >>> (i &&& 63).toNat) &&& 1 ≠ 0#64)

def intersect (b other : RawBitset) : RawBitset := { b with words := BitWords.inter b.words other.words }

def count (b : RawBitset) : UInt64 := b.words.foldl (fun c word => c + UInt64.ofNat word.cpop.toNat) 0

end RawBitset

/-! ### Histories -/

/-- How a bitset came about; the other side of an intersection has its own history. -/
inductive BitsetHistory
  | new
  | resize (b : BitsetHistory) (n : UInt64)
  | clear (b : BitsetHistory)
  | set (b : BitsetHistory) (i : UInt64)
  | reset (b : BitsetHistory) (i : UInt64)
  | intersect (b other : BitsetHistory)

namespace BitsetHistory

def run : BitsetHistory → Except Error RawBitset
  | new => .ok {}
  | resize b n => do
    let b ← b.run
    pure (b.resize n)
  | clear b => do
    let b ← b.run
    pure b.clear
  | set b i => do
    let b ← b.run
    b.set i
  | reset b i => do
    let b ← b.run
    b.reset i
  | intersect b other => do
    let b ← b.run
    let other ← other.run
    pure (b.intersect other)

/-- The size the last resize gave it. -/
def size : BitsetHistory → UInt64
  | new => 0
  | resize _ n => n
  | clear b => b.size
  | set b _ => b.size
  | reset b _ => b.size
  | intersect b _ => b.size

/-- The set it stands for. -/
def members : BitsetHistory → Finset Nat
  | new => ∅
  | resize _ _ => ∅
  | clear _ => ∅
  | set b i => insert i.toNat b.members
  | reset b i => b.members.erase i.toNat
  | intersect b other => b.members ∩ other.members

/-- Positions are below the size at the time. -/
def Valid : BitsetHistory → Prop
  | new => True
  | resize b _ => b.Valid
  | clear b => b.Valid
  | set b i => i < b.size ∧ b.Valid
  | reset b i => i < b.size ∧ b.Valid
  | intersect b other => b.Valid ∧ other.Valid

/-- The history runs to its end, and what it leaves behind tests and counts as the set does. -/
def Represented (b : BitsetHistory) : Prop :=
  ∃ raw, b.run = .ok raw ∧ (∀ j, raw.test j = .ok (decide (j.toNat ∈ b.members))) ∧
    (∀ j, b.size ≤ j → raw.test j = .ok false) ∧ raw.count.toNat = b.members.card

/-- A size that can be rounded up to words. -/
def Fits (n : UInt64) : Prop := n.toNat + 63 < 2 ^ 64

instance (n : UInt64) : Decidable (Fits n) := inferInstanceAs (Decidable (n.toNat + 63 < 2 ^ 64))

/-- Whenever a bit was set or reset, the size was one that can be rounded up. -/
def FitsThroughout : BitsetHistory → Prop
  | new => True
  | resize b _ => b.FitsThroughout
  | clear b => b.FitsThroughout
  | set b _ => Fits b.size ∧ b.FitsThroughout
  | reset b _ => Fits b.size ∧ b.FitsThroughout
  | intersect b other => b.FitsThroughout ∧ other.FitsThroughout

/-! ### Words and sizes -/

theorem toNat_shiftRight_six (i : UInt64) : (i >>> 6).toNat = i.toNat / 64 := by
  rw [UInt64.toNat_shiftRight]
  exact Nat.shiftRight_eq_div_pow i.toNat 6

theorem toNat_and_sixtyThree (i : UInt64) : (i &&& 63).toNat = i.toNat % 64 := by
  rw [UInt64.toNat_and]
  exact Bitset.and_sixtyThree i.toNat

theorem Fits.toNat_words {n : UInt64} (h : Fits n) : ((n + 63) / 64).toNat = (n.toNat + 63) / 64 := by
  rw [UInt64.toNat_div, UInt64.toNat_add]
  congr 1
  exact Nat.mod_eq_of_lt h

/-- A size that cannot be rounded up is left without words. -/
theorem toNat_words_of_not_fits {n : UInt64} (h : ¬ Fits n) : ((n + 63) / 64).toNat = 0 := by
  have hlt := n.toNat_lt
  have hge : 2 ^ 64 ≤ n.toNat + 63 := Nat.not_lt.mp h
  rw [UInt64.toNat_div, UInt64.toNat_add]
  change (n.toNat + 63) % 2 ^ 64 / 64 = 0
  omega

theorem toNat_words_le (n : UInt64) : 64 * ((n + 63) / 64).toNat < 2 ^ 64 := by
  have hlt := (n + 63).toNat_lt
  have hdiv := Nat.mul_div_le (n + 63).toNat 64
  rw [UInt64.toNat_div]
  exact hdiv.trans_lt hlt

theorem word_lt_iff {n i : UInt64} (hi : i < n) : i.toNat / 64 < ((n + 63) / 64).toNat ↔ Fits n := by
  constructor
  · intro hlt
    by_contra hfits
    rw [toNat_words_of_not_fits hfits] at hlt
    exact Nat.not_lt_zero _ hlt
  · intro hfits
    have hi := UInt64.lt_iff_toNat_lt.mp hi
    rw [hfits.toNat_words]
    omega

/-! ### What is stored -/

/-- What the words hold after a history that ran to its end. -/
structure Stored (b : BitsetHistory) (raw : RawBitset) : Prop where
  size_eq : raw.size = b.size
  length_eq : raw.words.length = ((b.size + 63) / 64).toNat
  bit_iff : ∀ k, BitWords.bit raw.words k = true ↔ k ∈ b.members

theorem stored_zeros {b : BitsetHistory} {raw : RawBitset} {n : Nat} (hwords : raw.words = List.replicate n 0)
    (hsize : raw.size = b.size) (hlength : n = ((b.size + 63) / 64).toNat) (hmembers : b.members = ∅) :
    b.Stored raw where
  size_eq := hsize
  length_eq := by rw [hwords, List.length_replicate, hlength]
  bit_iff k := by
    rw [hwords, BitWords.bit_replicate_zero, hmembers]
    simp

theorem modifyWord_yields {raw : RawBitset} {i : UInt64} (f : BitVec 64 → BitVec 64)
    (hi : i.toNat / 64 < raw.words.length) :
    raw.modifyWord i f = .ok { raw with
      words := raw.words.set (i.toNat / 64) (f (raw.words.getD (i.toNat / 64) 0)) } := by
  rw [RawBitset.modifyWord, toNat_shiftRight_six, List.getD_eq_getElem?_getD, List.getElem?_eq_getElem hi]
  rfl

theorem Stored.resize {b : BitsetHistory} (raw : RawBitset) (n : UInt64) :
    (b.resize n).Stored (raw.resize n) :=
  stored_zeros rfl rfl rfl rfl

theorem Stored.clear {b : BitsetHistory} {raw : RawBitset} (h : b.Stored raw) : b.clear.Stored raw.clear :=
  stored_zeros rfl h.size_eq h.length_eq rfl

theorem Stored.set {b : BitsetHistory} {raw : RawBitset} (h : b.Stored raw) {i : UInt64} (hi : i < b.size)
    (hfits : Fits b.size) : ∃ raw', raw.set i = .ok raw' ∧ (b.set i).Stored raw' := by
  have hword : i.toNat / 64 < raw.words.length := h.length_eq ▸ (word_lt_iff hi).mpr hfits
  refine ⟨_, modifyWord_yields _ hword, h.size_eq, (List.length_set ..).trans h.length_eq, fun k => ?_⟩
  rw [toNat_and_sixtyThree, BitWords.bit_set_or (by decide) hword, members, Finset.mem_insert]
  by_cases hk : k = i.toNat
  · simp [hk]
  · simp [hk, h.bit_iff]

theorem Stored.reset {b : BitsetHistory} {raw : RawBitset} (h : b.Stored raw) {i : UInt64} (hi : i < b.size)
    (hfits : Fits b.size) : ∃ raw', raw.reset i = .ok raw' ∧ (b.reset i).Stored raw' := by
  have hword : i.toNat / 64 < raw.words.length := h.length_eq ▸ (word_lt_iff hi).mpr hfits
  refine ⟨_, modifyWord_yields _ hword, h.size_eq, (List.length_set ..).trans h.length_eq, fun k => ?_⟩
  rw [toNat_and_sixtyThree, BitWords.bit_set_and_not (by decide) hword, members, Finset.mem_erase]
  by_cases hk : k = i.toNat
  · simp [hk]
  · simp [hk, h.bit_iff]

theorem Stored.intersect {b other : BitsetHistory} {raw raw' : RawBitset} (h : b.Stored raw)
    (h' : other.Stored raw') : (b.intersect other).Stored (raw.intersect raw') where
  size_eq := h.size_eq
  length_eq := (BitWords.length_inter _ _).trans h.length_eq
  bit_iff k := by
    change BitWords.bit (BitWords.inter raw.words raw'.words) k = true ↔ _
    rw [BitWords.bit_inter, Bool.and_eq_true, h.bit_iff, h'.bit_iff, members, Finset.mem_inter]

theorem Stored.modifyWord_error {b : BitsetHistory} {raw : RawBitset} (h : b.Stored raw) {i : UInt64}
    (hi : i < b.size) (hfits : ¬ Fits b.size) (f : BitVec 64 → BitVec 64) :
    raw.modifyWord i f = .error .outOfRange := by
  have hword : ¬ i.toNat / 64 < raw.words.length := by
    rw [h.length_eq, word_lt_iff hi]
    exact hfits
  rw [RawBitset.modifyWord, toNat_shiftRight_six, List.getElem?_eq_none (Nat.not_lt.mp hword)]

/-! ### Whole histories -/

open Outcome

/-- A history runs to its end if there were words for the bits it set and reset. -/
theorem run_yields (b : BitsetHistory) (hvalid : b.Valid) (hfits : b.FitsThroughout) :
    Yields b.run b.Stored := by
  induction b with
  | new => exact .ok (stored_zeros (n := 0) rfl rfl rfl rfl)
  | resize b n ih => exact (ih hvalid hfits).bind fun raw _ => .pure (.resize raw n)
  | clear b ih => exact (ih hvalid hfits).bind fun raw h => .pure h.clear
  | set b i ih => exact (ih hvalid.2 hfits.2).bind fun raw h => h.set hvalid.1 hfits.1
  | reset b i ih => exact (ih hvalid.2 hfits.2).bind fun raw h => h.reset hvalid.1 hfits.1
  | intersect b other ih ih' =>
      refine (ih hvalid.1 hfits.1).bind fun raw h => ?_
      exact (ih' hvalid.2 hfits.2).bind fun raw' h' => .pure (h.intersect h')

theorem fits_of_modifyWord {b : BitsetHistory} (hvalid : b.Valid) (hfits : b.FitsThroughout) {i : UInt64}
    (hi : i < b.size) {raw raw' : RawBitset} (hrun : b.run = .ok raw) {f : BitVec 64 → BitVec 64}
    (hmodify : raw.modifyWord i f = .ok raw') : Fits b.size := by
  obtain ⟨stored, hstored, h⟩ := b.run_yields hvalid hfits
  cases hrun.symm.trans hstored
  by_contra hnot
  rw [h.modifyWord_error hi hnot] at hmodify
  cases hmodify

theorem fitsThroughout_of_run (b : BitsetHistory) (hvalid : b.Valid) {raw : RawBitset}
    (hrun : b.run = .ok raw) :
    b.FitsThroughout := by
  induction b generalizing raw with
  | new => trivial
  | resize b n ih =>
      obtain ⟨raw', hrun', -⟩ := exists_of_bind_eq_ok hrun
      exact ih hvalid hrun'
  | clear b ih =>
      obtain ⟨raw', hrun', -⟩ := exists_of_bind_eq_ok hrun
      exact ih hvalid hrun'
  | set b i ih =>
      obtain ⟨raw', hrun', hset⟩ := exists_of_bind_eq_ok hrun
      have hfits := ih hvalid.2 hrun'
      exact ⟨fits_of_modifyWord hvalid.2 hfits hvalid.1 hrun' hset, hfits⟩
  | reset b i ih =>
      obtain ⟨raw', hrun', hreset⟩ := exists_of_bind_eq_ok hrun
      have hfits := ih hvalid.2 hrun'
      exact ⟨fits_of_modifyWord hvalid.2 hfits hvalid.1 hrun' hreset, hfits⟩
  | intersect b other ih ih' =>
      obtain ⟨raw', hrun', hrest⟩ := exists_of_bind_eq_ok hrun
      obtain ⟨raw'', hrun'', -⟩ := exists_of_bind_eq_ok hrest
      exact ⟨ih hvalid.1 hrun', ih' hvalid.2 hrun''⟩

theorem members_lt (b : BitsetHistory) (hvalid : b.Valid) : ∀ k ∈ b.members, k < b.size.toNat := by
  induction b with
  | new => exact fun k hk => absurd hk (Finset.notMem_empty k)
  | resize b n ih => exact fun k hk => absurd hk (Finset.notMem_empty k)
  | clear b ih => exact fun k hk => absurd hk (Finset.notMem_empty k)
  | set b i ih =>
      intro k hk
      rcases Finset.mem_insert.mp hk with rfl | hk
      · exact UInt64.lt_iff_toNat_lt.mp hvalid.1
      · exact ih hvalid.2 k hk
  | reset b i ih => exact fun k hk => ih hvalid.2 k (Finset.mem_of_mem_erase hk)
  | intersect b other ih ih' => exact fun k hk => ih hvalid.1 k (Finset.mem_inter.mp hk).1

/-! ### Reading -/

theorem toNat_foldl_count (words : List (BitVec 64)) (c : UInt64) :
    (words.foldl (fun c word => c + UInt64.ofNat word.cpop.toNat) c).toNat =
      (c.toNat + BitWords.popcount words) % 2 ^ 64 := by
  induction words generalizing c with
  | nil => exact (Nat.mod_eq_of_lt c.toNat_lt).symm
  | cons word words ih =>
      rw [List.foldl_cons, ih, UInt64.toNat_add, UInt64.toNat_ofNat', Nat.add_mod_mod, Nat.mod_add_mod,
        Nat.add_assoc]
      rfl

section Reading

variable {b : BitsetHistory} {raw : RawBitset} (h : b.Stored raw)

include h

theorem Stored.test_of_size_le {j : UInt64} (hj : b.size ≤ j) : raw.test j = .ok false :=
  if_pos (h.size_eq ▸ hj)

theorem Stored.test_eq (hvalid : b.Valid) (hfits : Fits b.size) (j : UInt64) :
    raw.test j = .ok (decide (j.toNat ∈ b.members)) := by
  by_cases hj : b.size ≤ j
  · have hout : j.toNat ∉ b.members := fun hmem =>
      absurd (UInt64.le_iff_toNat_le.mp hj) (Nat.not_le.mpr (b.members_lt hvalid _ hmem))
    rw [h.test_of_size_le hj, decide_eq_false hout]
  · have hword : j.toNat / 64 < raw.words.length :=
      h.length_eq ▸ (word_lt_iff (UInt64.not_le.mp hj)).mpr hfits
    have hbit := h.bit_iff j.toNat
    rw [BitWords.bit, List.getD_eq_getElem?_getD, List.getElem?_eq_getElem hword, Option.getD_some] at hbit
    rw [RawBitset.test, if_neg (h.size_eq ▸ hj), toNat_shiftRight_six, toNat_and_sixtyThree,
      List.getElem?_eq_getElem hword]
    exact congrArg Except.ok (decide_eq_decide.mpr ((Bitset.shift_and_one _ _).trans hbit))

theorem Stored.test_zero_error (hfits : ¬ Fits b.size) : raw.test 0 = .error .outOfRange := by
  have hpos : (0 : UInt64) < b.size := by
    have hge : 2 ^ 64 ≤ b.size.toNat + 63 := Nat.not_lt.mp hfits
    apply UInt64.lt_iff_toNat_lt.mpr
    rw [UInt64.toNat_zero]
    omega
  have hnone : raw.words.length ≤ ((0 : UInt64) >>> 6).toNat := by
    rw [h.length_eq, toNat_words_of_not_fits hfits]
    exact Nat.zero_le _
  rw [RawBitset.test, if_neg (h.size_eq ▸ UInt64.not_le.mpr hpos), List.getElem?_eq_none hnone]

theorem Stored.count_eq : raw.count.toNat = b.members.card := by
  have hlt : BitWords.popcount raw.words < 2 ^ 64 := by
    refine (BitWords.popcount_le raw.words).trans_lt ?_
    rw [h.length_eq]
    exact toNat_words_le b.size
  rw [RawBitset.count, toNat_foldl_count, UInt64.toNat_zero, Nat.zero_add, Nat.mod_eq_of_lt hlt]
  exact BitWords.popcount_eq_card (by decide) fun k => (h.bit_iff k).symm

end Reading

/-- **The bitset is a finite set.** Whatever was done to a bitset, with positions below its size and
intersections with bitsets of any size, it runs to its end, and tests and counts as the set does, if and only
if the size was one that can be rounded up to words whenever a bit was set or reset, and at the end. -/
theorem bitset_is_finite_set_iff (b : BitsetHistory) (hvalid : b.Valid) :
    b.Represented ↔ b.FitsThroughout ∧ Fits b.size := by
  constructor
  · rintro ⟨raw, hrun, htest, -⟩
    have hthroughout := b.fitsThroughout_of_run hvalid hrun
    obtain ⟨stored, hstored, h⟩ := b.run_yields hvalid hthroughout
    cases hrun.symm.trans hstored
    refine ⟨hthroughout, ?_⟩
    by_contra hfits
    have hzero := htest 0
    rw [h.test_zero_error hfits] at hzero
    cases hzero
  · rintro ⟨hthroughout, hfits⟩
    obtain ⟨raw, hrun, h⟩ := b.run_yields hvalid hthroughout
    exact ⟨raw, hrun, h.test_eq hvalid hfits, fun j hj => h.test_of_size_le hj, h.count_eq⟩

/-- A set of size 70 with a bit in each word, intersected with one of size 3. -/
theorem bitset_is_finite_set_sample :
    (intersect (set (set (resize new 70) 2) 69) (set (resize new 3) 2)).Represented := by
  have hsmall : Fits 3 := by decide
  have hlarge : Fits 70 := by decide
  refine (bitset_is_finite_set_iff _ ?_).mpr ⟨?_, hlarge⟩
  · exact ⟨⟨by decide, by decide, trivial⟩, by decide, trivial⟩
  · exact ⟨⟨hlarge, hlarge, trivial⟩, hsmall, trivial⟩

/-- The largest size is rounded up to no words at all. -/
theorem largest_size_has_no_words : ¬ (resize new 0xFFFFFFFFFFFFFFFF).Represented := by
  rintro ⟨raw, hrun, htest, -⟩
  cases hrun
  exact absurd (htest 0) (by decide)

end BitsetHistory

/-! ### The allowed set -/

namespace Bitset

open BitsetHistory

/-- How the allowed set is stored. -/
def raw (b : Bitset) : RawBitset := ⟨b.words, UInt64.ofNat b.size⟩

theorem raw_ofSize {n : Nat} (hn : n + 63 < 2 ^ 64) (b : RawBitset) :
    (ofSize n).raw = b.resize (UInt64.ofNat n) := by
  have hsize : (UInt64.ofNat n).toNat = n := UInt64.toNat_ofNat_of_lt' ((Nat.le_add_right n 63).trans_lt hn)
  have hfits : Fits (UInt64.ofNat n) := by
    rw [Fits, hsize]
    exact hn
  rw [RawBitset.resize, hfits.toNat_words, hsize]
  rfl

variable (b : Bitset) (hsize : b.size < 2 ^ 64) {i : Nat}

include hsize

theorem set_raw (hi : i < b.size) : b.raw.set (UInt64.ofNat i) = .ok (b.set i).raw := by
  have hnat : (UInt64.ofNat i).toNat = i := UInt64.toNat_ofNat_of_lt' (hi.trans hsize)
  have hword : i / 64 < b.words.length := Nat.shiftRight_eq_div_pow i 6 ▸ b.word_lt hi
  rw [RawBitset.set, modifyWord_yields _ (hnat.symm ▸ hword), toNat_and_sixtyThree, hnat, raw, raw,
    b.words_set]
  rfl

theorem test_raw (hi : i < 2 ^ 64) : b.raw.test (UInt64.ofNat i) = .ok (b.test i) := by
  have hnat : (UInt64.ofNat i).toNat = i := UInt64.toNat_ofNat_of_lt' hi
  have hle : b.raw.size ≤ UInt64.ofNat i ↔ b.size ≤ i := by
    rw [UInt64.le_iff_toNat_le, hnat, raw, UInt64.toNat_ofNat_of_lt' hsize]
  by_cases hout : b.size ≤ i
  · rw [RawBitset.test, if_pos (hle.mpr hout), b.test_of_size_le hout]
  · have hword : i >>> 6 < b.raw.words.length := b.word_lt (Nat.not_le.mp hout)
    rw [RawBitset.test, if_neg (mt hle.mp hout), toNat_shiftRight_six, toNat_and_sixtyThree, hnat,
      ← and_sixtyThree, show i / 64 = i >>> 6 from (Nat.shiftRight_eq_div_pow i 6).symm,
      List.getElem?_eq_getElem hword, test, if_neg hout, List.getD_eq_getElem?_getD]
    rw [show b.words[i >>> 6]? = some b.raw.words[i >>> 6] from List.getElem?_eq_getElem hword]
    rfl

end Bitset

end ToyVdb
