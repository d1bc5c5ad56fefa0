import ToyVdb.Rag.Model

/-!
# Chunk keys

A document id may contain anything, also the character that separates it from the number. The number
has only digits, so the last separator is the one that was put there, and the key determines the
document and the number.
-/

namespace ToyVdb

namespace RagEngine

/-- Behind its last separator, a list can be split in one way only. -/
theorem append_separator_inj {α : Type} {sep : α} {as bs cs ds : List α} (hbs : sep ∉ bs) (hds : sep ∉ ds)
    (heq : as ++ sep :: bs = cs ++ sep :: ds) : as = cs ∧ bs = ds := by
  rcases List.append_eq_append_iff.mp heq with ⟨mid, hcs, hmid⟩ | ⟨mid, has, hmid⟩
  · cases mid with
    | nil =>
        rw [List.append_nil] at hcs
        exact ⟨hcs.symm, (List.cons.inj hmid).2⟩
    | cons x mid =>
        obtain ⟨-, rfl⟩ := List.cons.inj hmid
        exact absurd (List.mem_append_right mid List.mem_cons_self) hbs
  · cases mid with
    | nil =>
        rw [List.append_nil] at has
        exact ⟨has, (List.cons.inj hmid).2.symm⟩
    | cons x mid =>
        obtain ⟨-, rfl⟩ := List.cons.inj hmid
        exact absurd (List.mem_append_right mid List.mem_cons_self) hds

theorem toNat_digit {c : Char} (h : c.isDigit = true) : 48 ≤ c.toNat ∧ c.toNat ≤ 57 :=
  Char.isDigit_iff_toNat.mp h

theorem toNat_digitByte {c : Char} (h : c.isDigit = true) : (UInt8.ofNat c.toNat).toNat = c.toNat := by
  apply UInt8.toNat_ofNat_of_lt'
  have hle := (toNat_digit h).2
  have hsize : UInt8.size = 256 := rfl
  omega

theorem isDigit_of_mem {n : Nat} {c : Char} (h : c ∈ Nat.toDigits 10 n) : c.isDigit = true :=
  Nat.isDigit_of_mem_toDigits (by decide) (by decide) h

theorem notMem_decimal (n : Nat) : (35 : UInt8) ∉ decimal n := by
  intro hmem
  obtain ⟨c, hc, heq⟩ := List.mem_map.mp hmem
  have hdigit := isDigit_of_mem hc
  have hnat := congrArg UInt8.toNat heq
  rw [toNat_digitByte hdigit] at hnat
  have hge := (toNat_digit hdigit).1
  have hsep : (35 : UInt8).toNat = 35 := rfl
  omega

theorem map_decimal (n : Nat) : (decimal n).map (fun b => Char.ofNat b.toNat) = Nat.toDigits 10 n := by
  rw [decimal, List.map_map]
  refine (List.map_congr_left fun c hc => ?_).trans (List.map_id _)
  show Char.ofNat (UInt8.ofNat c.toNat).toNat = c
  rw [toNat_digitByte (isDigit_of_mem hc), Char.ofNat_toNat]

theorem decimal_injective : Function.Injective decimal := by
  intro n n' heq
  have hdigits := congrArg (List.map fun b => Char.ofNat b.toNat) heq
  rw [map_decimal, map_decimal] at hdigits
  rw [← @Nat.ofDigitChars_ten_toDigits n, hdigits, Nat.ofDigitChars_ten_toDigits]

/-- No two chunks share a key, whatever the ids of their documents. -/
theorem chunkKey_inj {docId docId' : Bytes} {i i' : Nat} (heq : chunkKey docId i = chunkKey docId' i') :
    docId = docId' ∧ i = i' := by
  have hsep : ascii "#" = [35] := by decide
  simp only [chunkKey, hsep, List.append_assoc, List.singleton_append] at heq
  obtain ⟨hdoc, hnumber⟩ := append_separator_inj (notMem_decimal i) (notMem_decimal i') heq
  exact ⟨hdoc, decimal_injective hnumber⟩

end RagEngine

end ToyVdb
