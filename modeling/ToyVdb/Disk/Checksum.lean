import ToyVdb.Disk.Crc32
import ToyVdb.Lib.Crc

/-!
# What the checksum is

The table-driven loop is a reflected shift register: bit 0 of the word is the highest power, and a byte enters
with its lowest bit first. Read the other way round it divides the message, behind 32 ones and in front of 32
zeros, by the polynomial of the constant in the source.

That constant is one digit off the one of IEEE 802.3. It still makes a register of 32 bits, so bursts of up to
32 bits are caught and a log is read up to the record they are in; but it is another checksum.
-/

namespace ToyVdb

open Polynomial Crc

/-! ### The register -/

theorem toBitVec_crcStep (c : UInt32) :
    (crcStep c).toBitVec = shiftDown crcPolynomial.toBitVec c.toBitVec := by
  have hbit : (c &&& 1).toBitVec = (BitVec.ofBool (c.toBitVec.getLsbD 0)).setWidth 32 := by
    rw [UInt32.toBitVec_and]
    exact BitVec.and_one_eq_setWidth_ofBool_getLsbD
  have hzero : c &&& 1 = 0 ↔ c.toBitVec.getLsbD 0 = false := by
    rw [← UInt32.toBitVec_inj, hbit]
    cases c.toBitVec.getLsbD 0 <;> decide
  rw [crcStep, shiftDown]
  by_cases h : c &&& 1 = 0
  · rw [if_neg (not_not.mpr h), hzero.mp h]
    rfl
  · rw [if_pos h, if_pos (Bool.eq_true_of_not_eq_false (mt hzero.mpr h))]
    rfl

theorem toBitVec_iterate_crcStep (n : Nat) (c : UInt32) :
    (crcStep^[n] c).toBitVec = (shiftDown crcPolynomial.toBitVec)^[n] c.toBitVec :=
  Function.Semiconj.iterate_right toBitVec_crcStep n c

/-- The table has what is left of a byte after eight steps. -/
theorem kCrc32Table_getD (b : UInt8) : kCrc32Table.getD b.toNat 0 = crcStep^[8] b.toUInt32 := by
  have hlt : b.toNat < 256 := b.toNat_lt
  have hbyte : UInt32.ofNat b.toNat = b.toUInt32 := by simp
  rw [kCrc32Table, List.getD_eq_getElem?_getD, List.getElem?_map, List.getElem?_range hlt, Option.map_some,
    Option.getD_some, hbyte]

theorem update_eq (c : UInt32) (b : UInt8) :
    kCrc32Table.getD (c.toUInt8 ^^^ b).toNat 0 ^^^ (c >>> 8) = crcStep^[8] (c ^^^ b.toUInt32) := by
  rw [kCrc32Table_getD]
  apply UInt32.toBitVec_inj.mp
  have hbyte : c.toUInt8 ^^^ b = (c ^^^ b.toUInt32).toUInt8 := by simp
  have hlow : (c.toUInt8 ^^^ b).toUInt32.toBitVec = ((c ^^^ b.toUInt32).toBitVec.setWidth 8).setWidth 32 := by
    rw [hbyte]
    rfl
  have hhigh : (c >>> 8).toBitVec = (c ^^^ b.toUInt32).toBitVec >>> 8 := by
    apply BitVec.eq_of_getLsbD_eq
    intro i hi
    simp
  rw [UInt32.toBitVec_xor, toBitVec_iterate_crcStep, toBitVec_iterate_crcStep, hlow, hhigh,
    iterate_shiftDown_split _ (c ^^^ b.toUInt32).toBitVec (by decide) 8]

theorem crc32_eq (data : Bytes) :
    crc32 data = data.foldl (fun c b => crcStep^[8] (c ^^^ b.toUInt32)) 0xFFFFFFFF ^^^ 0xFFFFFFFF := by
  have hupdate : (fun (c : UInt32) (b : UInt8) => kCrc32Table.getD (c.toUInt8 ^^^ b).toNat 0 ^^^ (c >>> 8)) =
      fun c b => crcStep^[8] (c ^^^ b.toUInt32) := by
    funext c b
    exact update_eq c b
  rw [crc32, hupdate]

/-- Shift the register by one bit, and add the polynomial if a one fell out. -/
def bitSerialStep (c : UInt32) : UInt32 := (c >>> 1) ^^^ (if c % 2 = 1 then crcPolynomial else 0)

/-- A byte goes into the low bits of the register, which is then shifted eight times. -/
def bitSerialCrc32 (data : Bytes) : UInt32 :=
  data.foldl (fun c b => bitSerialStep^[8] (c ^^^ b.toUInt32)) 0xFFFFFFFF ^^^ 0xFFFFFFFF

theorem crcStep_eq (c : UInt32) : crcStep c = bitSerialStep c := by
  have hodd : c &&& 1 = c % 2 := by
    apply UInt32.toNat_inj.mp
    rw [UInt32.toNat_and, UInt32.toNat_mod]
    exact Nat.and_one_is_mod _
  have hlt : c % 2 = 0 ∨ c % 2 = 1 := by
    rw [← UInt32.toNat_inj, ← UInt32.toNat_inj, UInt32.toNat_mod]
    exact Nat.mod_two_eq_zero_or_one _
  rw [crcStep, bitSerialStep, hodd]
  rcases hlt with hzero | hone
  · rw [hzero, if_neg (by decide), if_neg (by decide), UInt32.xor_zero]
  · rw [hone, if_pos (by decide), if_pos rfl, UInt32.xor_comm]

/-- **The table is the bit-serial checksum.** The checksum by table is the one by single bits, with the
polynomial of the source. -/
theorem crc32_is_bit_serial (data : Bytes) : crc32 data = bitSerialCrc32 data := by
  have hstep : crcStep = bitSerialStep := by
    funext c
    exact crcStep_eq c
  rw [crc32_eq, bitSerialCrc32, hstep]

/-- The bits of a byte in the order they enter. -/
def byteBits (b : UInt8) : List Bool := (List.range 8).map b.toBitVec.getLsbD

def messageBits (data : Bytes) : List Bool := data.flatMap byteBits

theorem length_messageBits (data : Bytes) : (messageBits data).length = 8 * data.length := by
  induction data with
  | nil => rfl
  | cons b data ih =>
      rw [messageBits, List.flatMap_cons, List.length_append, ← messageBits, ih, byteBits, List.length_map,
        List.length_range, List.length_cons]
      omega

theorem messageBits_append (xs ys : Bytes) : messageBits (xs ++ ys) = messageBits xs ++ messageBits ys :=
  List.flatMap_append

theorem byteBits_injective {a b : UInt8} (h : byteBits a = byteBits b) : a = b := by
  apply UInt8.toBitVec_inj.mp
  apply BitVec.eq_of_getLsbD_eq
  intro i hi
  have hget := congrArg (fun bits => bits[i]?) h
  simpa [byteBits, List.getElem?_range hi] using hget

theorem messageBits_injective {xs ys : Bytes} (hlen : xs.length = ys.length)
    (h : messageBits xs = messageBits ys) :
    xs = ys := by
  induction xs generalizing ys with
  | nil => exact (List.length_eq_zero_iff.mp hlen.symm).symm
  | cons x xs ih =>
      cases ys with
      | nil => cases hlen
      | cons y ys =>
          rw [messageBits, messageBits, List.flatMap_cons, List.flatMap_cons] at h
          obtain ⟨hbyte, hrest⟩ := List.append_inj h (by simp [byteBits])
          rw [byteBits_injective hbyte, ih (Nat.succ.inj hlen) hrest]

/-- The feedback of the register the other way round. -/
def crcFeedback : BitVec 32 := crcPolynomial.toBitVec.reverse

/-- A byte is in front of the register when it is in its low bits. -/
theorem word_reverse_byte (b : UInt8) :
    word b.toUInt32.toBitVec.reverse * X ^ (byteBits b).length = ofBits (byteBits b) * X ^ 32 := by
  have hlength : (byteBits b).length = 8 := by simp [byteBits]
  have hword : word b.toUInt32.toBitVec.reverse = ofBits (byteBits b) * X ^ 24 := by
    ext k
    rw [coeff_word, coeff_mul_X_pow', BitVec.getLsbD_reverse, BitVec.getMsbD_eq_getLsbD, coeff_ofBits,
      UInt8.toBitVec_toUInt32, BitVec.getLsbD_setWidth]
    by_cases hlow : 24 ≤ k
    · rw [if_pos hlow]
      by_cases hhigh : k < 32
      · have hindex : 8 - 1 - (k - 24) = 32 - 1 - k := by omega
        rw [List.getElem?_reverse (by omega), hlength, hindex, byteBits, List.getElem?_map,
          List.getElem?_range (by omega)]
        simp [hhigh, show 32 - 1 - k < 32 by omega]
      · rw [List.getElem?_eq_none (by rw [List.length_reverse, hlength]; omega)]
        simp [hhigh]
    · rw [if_neg hlow, BitVec.getLsbD_of_ge _ _ (by omega), Bool.and_false, Bool.and_false, bitValue_false]
  rw [hword, hlength]
  ring

theorem reverse_foldl (data : Bytes) (c : UInt32) :
    (data.foldl (fun c b => crcStep^[8] (c ^^^ b.toUInt32)) c).toBitVec.reverse =
      (messageBits data).foldl (feed crcFeedback) c.toBitVec.reverse := by
  induction data generalizing c with
  | nil => rfl
  | cons b data ih =>
      rw [List.foldl_cons, ih, messageBits, messageBits, List.flatMap_cons, List.foldl_append,
        foldl_feed_eq _ _ _ (by decide) _ (word_reverse_byte b), toBitVec_iterate_crcStep,
        reverse_iterate_shiftDown, UInt32.toBitVec_xor, reverse_xor]
      rfl

/-- The checksum with bytes and result reflected, 32 ones at the start and a complement at the end. -/
def checksum (g : BitVec 32) (data : Bytes) : UInt32 :=
  ⟨((messageBits data).foldl (feed g) 0xFFFFFFFF).reverse⟩ ^^^ 0xFFFFFFFF

theorem crc32_eq_checksum (data : Bytes) : crc32 data = checksum crcFeedback data := by
  have hones : (0xFFFFFFFF : UInt32).toBitVec.reverse = 0xFFFFFFFF := by decide +kernel
  have hregister := reverse_foldl data 0xFFFFFFFF
  rw [crc32_eq, checksum, ← hones, ← hregister, BitVec.reverse_reverse_eq]

theorem checksum_eq_iff {g h : BitVec 32} {xs ys : Bytes} : checksum g xs = checksum h ys ↔
    (messageBits xs).foldl (feed g) 0xFFFFFFFF = (messageBits ys).foldl (feed h) 0xFFFFFFFF := by
  rw [checksum, checksum, UInt32.xor_left_inj, ← UInt32.toBitVec_inj, reverse_injective.eq_iff]

/-! ### The standard checksum -/

/-- The checksum of IEEE 802.3. -/
def ieeeCrc32 (data : Bytes) : UInt32 := checksum 0x04C11DB7 data

theorem generator_ieee : generator (0x04C11DB7 : BitVec 32) =
    X ^ 32 + X ^ 26 + X ^ 23 + X ^ 22 + X ^ 16 + X ^ 12 +
    X ^ 11 + X ^ 10 + X ^ 8 + X ^ 7 + X ^ 5 + X ^ 4 + X ^ 2 + X + 1 := by
  simp [generator, word, Finset.sum_range_succ]
  ring

/-- The source's generator has `X^20` in place of `X^23` and `X^22`. -/
theorem generator_crcFeedback :
    generator crcFeedback = generator (0x04C11DB7 : BitVec 32) + X ^ 20 * (X ^ 3 + X ^ 2 + 1) := by
  have hxor : crcFeedback = 0x04C11DB7 ^^^ 0x00D00000 := by decide +kernel
  have hdiff : word (0x00D00000 : BitVec 32) = X ^ 20 * (X ^ 3 + X ^ 2 + 1) := by
    simp [word, Finset.sum_range_succ]
    ring
  rw [hxor, generator, generator, word_xor, hdiff]
  exact (add_assoc _ _ _).symm

theorem isCoprime_generators : IsCoprime (generator crcFeedback) (generator (0x04C11DB7 : BitVec 32)) := by
  have hX : IsCoprime (generator (0x04C11DB7 : BitVec 32)) (X ^ 20) :=
    (isCoprime_X (by decide) (by decide)).pow_right
  -- modulo the other factor, over which the generator is `X^4`, `X^7` is 1
  have hfactor : IsCoprime (generator (0x04C11DB7 : BitVec 32)) (X ^ 3 + X ^ 2 + 1) := by
    have htwo : (2 : (ZMod 2)[X]) = 0 := CharTwo.two_eq_zero
    refine ⟨X ^ 3, -(X ^ 32 + X ^ 31 + X ^ 30 + X ^ 28 + X ^ 26 + X ^ 22 + X ^ 21 + X ^ 20 + X ^ 18 +
      X ^ 16 + X ^ 13 + X ^ 11 + X ^ 10 + X ^ 9 + X ^ 8 + X ^ 7 + X ^ 2 + 1), ?_⟩
    rw [generator_ieee]
    linear_combination -(X ^ 34 + X ^ 33 + X ^ 32 + X ^ 31 + X ^ 30 + X ^ 28 + X ^ 24 + X ^ 23 + X ^ 22 +
      X ^ 21 + X ^ 20 + X ^ 18 + X ^ 16 + X ^ 13 + X ^ 12 + X ^ 11 + X ^ 10 + X ^ 9 + X ^ 2 + 1) * htwo
  have hsum := (hX.mul_right hfactor).symm.add_mul_left_left 1
  rwa [mul_one, add_comm, ← generator_crcFeedback] at hsum

/-- What is divided: 32 ones, added to the first 32 bits of the message with 32 zeros behind it. -/
noncomputable def dividend (data : Bytes) : (ZMod 2)[X] :=
  word (0xFFFFFFFF : BitVec 32) * X ^ (8 * data.length) + ofBits (messageBits data) * X ^ 32

theorem word_foldl_messageBits (g : BitVec 32) (data : Bytes) :
    word ((messageBits data).foldl (feed g) 0xFFFFFFFF) = dividend data %ₘ generator g := by
  rw [word_foldl_feed g _ (by decide), length_messageBits, dividend]

/-- **The checksum is not the standard one.** It agrees with the checksum of IEEE 802.3 on exactly those byte
strings whose dividend leaves a remainder of degree below 32 by the product of the two generators. -/
theorem crc32_is_ieee_iff (data : Bytes) : crc32 data = ieeeCrc32 data ↔
    (dividend data %ₘ (generator crcFeedback * generator (0x04C11DB7 : BitVec 32))).degree < 32 := by
  rw [crc32_eq_checksum, ieeeCrc32, checksum_eq_iff, ← word_injective.eq_iff, word_foldl_messageBits,
    word_foldl_messageBits]
  exact modByMonic_eq_iff isCoprime_generators (dividend data)

example : crc32 [0xFF] = ieeeCrc32 [0xFF] := by decide +kernel

/-- The check value of the catalogues comes out differently. -/
theorem crc32_check_value_differs :
    crc32 (ascii "123456789") ≠ ieeeCrc32 (ascii "123456789") ∧
      ieeeCrc32 (ascii "123456789") = 0xCBF43926 := by
  decide +kernel

end ToyVdb
