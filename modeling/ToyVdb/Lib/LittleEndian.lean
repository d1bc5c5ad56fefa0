import Mathlib.Tactic.Ring
import Mathlib.Tactic.NormNum

/-!
# Fixed-width little-endian integers

The bytes of a natural at a fixed width, and the natural a byte string spells. Writing at a width keeps
the number modulo `256 ^ width`, which is what a C++ integer conversion does before the bytes are
copied, so the two directions are inverse exactly below that bound.
-/

namespace LittleEndian

/-- The low `width` bytes of a natural, least significant first. -/
def bytes : Nat → Nat → List UInt8
  | 0, _ => []
  | width + 1, n => UInt8.ofNat n :: bytes width (n / 256)

/-- The natural a byte string spells, least significant byte first. -/
def value (bs : List UInt8) : Nat := bs.foldr (fun b acc => b.toNat + 256 * acc) 0

@[simp] theorem length_bytes (width n : Nat) : (bytes width n).length = width := by
  induction width generalizing n with
  | zero => rfl
  | succ width ih => simp only [bytes, List.length_cons, ih]

theorem value_bytes (width n : Nat) : value (bytes width n) = n % 256 ^ width := by
  induction width generalizing n with
  | zero => simp only [bytes, value, List.foldr_nil, pow_zero, Nat.mod_one]
  | succ width ih =>
      have hhead : (UInt8.ofNat n).toNat = n % 256 := by simp
      change (UInt8.ofNat n).toNat + 256 * value (bytes width (n / 256)) = _
      rw [ih, hhead, pow_succ', Nat.mod_mul]

theorem value_bytes_of_lt {width n : Nat} (h : n < 256 ^ width) : value (bytes width n) = n := by
  rw [value_bytes, Nat.mod_eq_of_lt h]

theorem value_bytes_four {n : Nat} (h : n < 2 ^ 32) : value (bytes 4 n) = n :=
  value_bytes_of_lt (by norm_num; exact h)

theorem value_lt (bs : List UInt8) : value bs < 256 ^ bs.length := by
  induction bs with
  | nil => simp [value]
  | cons b bs ih =>
      have hb : b.toNat < 256 := b.toNat_lt
      change b.toNat + 256 * value bs < 256 ^ (bs.length + 1)
      rw [pow_succ']
      omega

theorem bytes_value (bs : List UInt8) : bytes bs.length (value bs) = bs := by
  induction bs with
  | nil => rfl
  | cons b bs ih =>
      have hb : b.toNat < 256 := b.toNat_lt
      have hhead : UInt8.ofNat (b.toNat + 256 * value bs) = b := by
        rw [← UInt8.toNat_inj, UInt8.toNat_ofNat']
        omega
      have htail : (b.toNat + 256 * value bs) / 256 = value bs := by omega
      change UInt8.ofNat (b.toNat + 256 * value bs) :: bytes bs.length ((b.toNat + 256 * value bs) / 256) = _
      rw [hhead, htail, ih]

end LittleEndian
