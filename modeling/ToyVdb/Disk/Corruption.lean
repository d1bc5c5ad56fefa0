import ToyVdb.Disk.Checksum
import ToyVdb.Disk.Faults

/-!
# The log under corruption

A record whose payload was changed in a window of at most four bytes has another checksum, whatever the
changes and wherever the window, and `replay` stops in front of it.
-/

namespace ToyVdb

open LittleEndian

/-- Of equal length, and the same outside of some four consecutive bytes. -/
def Localised (xs ys : Bytes) : Prop :=
  xs.length = ys.length ∧ ∃ start, ∀ i, i < start ∨ start + 4 ≤ i → xs[i]? = ys[i]?

theorem Localised.split {xs ys : Bytes} (h : Localised xs ys) :
    ∃ front us vs back, xs = front ++ us ++ back ∧ ys = front ++ vs ++ back ∧
      us.length = vs.length ∧ us.length ≤ 4 := by
  obtain ⟨hlen, start, hsame⟩ := h
  have hfront : xs.take start = ys.take start := by
    apply List.ext_getElem?
    intro i
    rw [List.getElem?_take, List.getElem?_take]
    split_ifs with hi
    · exact hsame i (.inl hi)
    · rfl
  have hback : xs.drop (start + 4) = ys.drop (start + 4) := by
    apply List.ext_getElem?
    intro i
    rw [List.getElem?_drop, List.getElem?_drop]
    exact hsame _ (.inr (Nat.le_add_right _ _))
  have hsplit : ∀ zs : Bytes, zs = zs.take start ++ (zs.drop start).take 4 ++ zs.drop (start + 4) :=
    fun zs => by
    rw [← List.drop_drop, List.append_assoc, List.take_append_drop, List.take_append_drop]
  refine ⟨xs.take start, (xs.drop start).take 4, (ys.drop start).take 4, xs.drop (start + 4),
    hsplit xs, ?_, ?_,
    List.length_take_le 4 _⟩
  · rw [hfront, hback]
    exact hsplit ys
  · rw [List.length_take, List.length_take, List.length_drop, List.length_drop, hlen]

theorem crc32_ne {xs ys : Bytes} (hne : xs ≠ ys) (h : Localised xs ys) : crc32 xs ≠ crc32 ys := by
  obtain ⟨front, us, vs, back, rfl, rfl, hlen, hfour⟩ := h.split
  intro heq
  rw [crc32_eq_checksum, crc32_eq_checksum, checksum_eq_iff] at heq
  simp only [messageBits_append] at heq
  have hbits := Crc.eq_of_foldl_feed_eq (by decide) (by decide +kernel) _
    (by rw [length_messageBits, length_messageBits, hlen]) (by rw [length_messageBits]; omega) heq
  rw [messageBits_injective hlen hbits] at hne
  exact hne rfl

namespace FileLogStore

/-- The file with the given bytes written over it at the given place. -/
def overwrite (file : Bytes) (offset : Nat) (bs : Bytes) : Bytes :=
  file.take offset ++ bs ++ file.drop (offset + bs.length)

theorem overwrite_payload (front : List Bytes) {record payload : Bytes}
    (hlen : payload.length = record.length)
    (back : List Bytes) :
    overwrite ((front ++ record :: back).flatMap frame) ((front.flatMap frame).length + 8) payload =
      front.flatMap frame ++
        (bytes 4 (crc32 record).toNat ++ bytes 4 payload.length ++ payload ++ back.flatMap frame) := by
  have hheader : (front.flatMap frame ++ (bytes 4 (crc32 record).toNat ++ bytes 4 record.length)).length =
      (front.flatMap frame).length + 8 := by
    simp only [List.length_append, length_bytes]
  have hfile : (front ++ record :: back).flatMap frame =
      front.flatMap frame ++ (bytes 4 (crc32 record).toNat ++ bytes 4 record.length) ++
        (record ++ back.flatMap frame) := by
    simp only [List.flatMap_append, List.flatMap_cons, frame, List.append_assoc]
  rw [overwrite, hfile, List.take_left' hheader, hlen, ← List.drop_drop, List.drop_left' hheader,
    List.drop_left]
  simp only [List.append_assoc]

theorem next_corrupted {record payload : Bytes} (hsmall : record.length < 2 ^ 32) (hne : record ≠ payload)
    (h : Localised record payload) (rest : Bytes) :
    next (bytes 4 (crc32 record).toNat ++ bytes 4 payload.length ++ payload ++ rest) = none := by
  rw [next_header (crc32 record).toNat_lt (h.1 ▸ hsmall) rest, if_pos]
  exact fun heq => crc32_ne hne h (UInt32.toNat_inj.mp heq).symm

theorem replay_corrupted {records : List Bytes}
    (hsmall : ∀ record ∈ records, record.length < 2 ^ 32) {j : Nat}
    {record payload : Bytes} (hj : records[j]? = some record) (hne : record ≠ payload)
    (h : Localised record payload) :
    replay (overwrite (records.foldl append []) (Framing.offset frame records j + 8) payload) =
      records.take j := by
  obtain ⟨hlt, hget⟩ := List.getElem?_eq_some_iff.mp hj
  have hsplit : records.take j ++ record :: records.drop (j + 1) = records := by
    rw [← hget, List.getElem_cons_drop, List.take_append_drop]
  have hfile := overwrite_payload (records.take j) h.1.symm (records.drop (j + 1))
  rw [hsplit] at hfile
  rw [foldl_append, List.nil_append, Framing.offset, hfile]
  exact replay_frames (records.take j) (fun r hr => hsmall r (List.mem_of_mem_take hr))
    (next_corrupted (hsmall record (List.mem_of_getElem? hj)) hne h _)

/-- **Localised corruption is caught.** Byte strings of equal length that differ, and only within four
consecutive bytes, have different checksums; so of a log with a payload corrupted in this way, whatever the
record and wherever in it, exactly the records in front of it are delivered. -/
theorem localised_corruption_is_caught :
    (∀ xs ys : Bytes, xs ≠ ys → Localised xs ys → crc32 xs ≠ crc32 ys) ∧
      ∀ records : List Bytes, (∀ record ∈ records, record.length < 2 ^ 32) →
        ∀ (j : Nat) (record payload : Bytes), records[j]? = some record → record ≠ payload →
          Localised record payload →
          replay (overwrite (records.foldl append []) (Framing.offset frame records j + 8) payload) =
            records.take j :=
  ⟨fun _ _ hne h => crc32_ne hne h, fun _ hsmall _ _ _ hj hne h => replay_corrupted hsmall hj hne h⟩

/-- The second of two records, with its first byte changed. -/
theorem localised_corruption_is_caught_sample :
    crc32 (ascii "world") ≠ crc32 (ascii "Xorld") ∧
      replay (overwrite ([ascii "hello", ascii "world"].foldl append [])
        (Framing.offset frame [ascii "hello", ascii "world"] 1 + 8) (ascii "Xorld")) = [ascii "hello"] := by
  have hlocal : Localised (ascii "world") (ascii "Xorld") := by
    refine ⟨rfl, 0, fun i hi => ?_⟩
    have hfour : 4 ≤ i := by omega
    obtain ⟨k, rfl⟩ := Nat.exists_eq_add_of_le' hfour
    rfl
  have hsmall : ∀ record ∈ [ascii "hello", ascii "world"], record.length < 2 ^ 32 := by decide
  exact ⟨localised_corruption_is_caught.1 _ _ (by decide) hlocal,
    localised_corruption_is_caught.2 _ hsmall 1 _ _ rfl (by decide) hlocal⟩

end FileLogStore

end ToyVdb
