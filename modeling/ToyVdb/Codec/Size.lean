import ToyVdb.Codec.RoundTrip
import ToyVdb.Lib.Framing

/-!
# The size of a record

A record's size does not depend on the order in which its metadata is iterated, and a record whose size fits
32 bits has only fields whose lengths do.
-/

namespace ToyVdb

open LittleEndian

/-! ### Iteration orders -/

theorem IterOrder.entries_perm (order order' : IterOrder) (m : Metadata) :
    (order.entries m).Perm (order'.entries m) := by
  rw [List.perm_ext_iff_of_nodup (order.nodup m).of_map (order'.nodup m).of_map]
  intro entry
  rw [order.mem_iff m entry.1 entry.2, order'.mem_iff m entry.1 entry.2]

theorem length_encodeMetadata (order order' : IterOrder) (m : Metadata) :
    (encodeMetadata order m).length = (encodeMetadata order' m).length := by
  have hperm := order.entries_perm order' m
  rw [encodeMetadata, encodeMetadata, hperm.length_eq, List.length_append, List.length_append,
    (hperm.flatMap_right encodeEntry).length_eq]

theorem length_encodeMeta (order order' : IterOrder) (m? : Option Metadata) :
    (encodeMeta order m?).length = (encodeMeta order' m?).length := by
  cases m? with
  | none => rfl
  | some m =>
      rw [encodeMeta, encodeMeta, List.length_append, List.length_append,
        length_encodeMetadata order order']

theorem length_str (s : Bytes) : (Writer.str s).length = 4 + s.length := by
  simp only [Writer.str, Writer.u32, List.length_append, length_bytes]

theorem length_encodeOp (order : IterOrder) (op : Op) :
    (encodeOp order op).length = 5 + op.extId.length +
      if op.type = .delete then 0 else 4 + 4 * op.vec.length + (encodeMeta order op.metadata).length := by
  rw [encodeOp, List.length_append, List.length_append, length_str]
  split_ifs
  · simp [Writer.u8]
    omega
  · simp only [Writer.u8, Writer.u32, List.length_append, length_bytes, length_floats, List.length_singleton]
    omega

/-! ### Small records -/

theorem length_encodeEntry (entry : Bytes × MetaValue) :
    (encodeEntry entry).length = 4 + entry.1.length + (encodeValue entry.2).length := by
  rw [encodeEntry, List.length_append, length_str]

theorem metadataEncodable_of_length (order : IterOrder) {m : Metadata}
    (hsmall : (encodeMetadata order m).length < 2 ^ 32) : MetadataEncodable m := by
  rw [encodeMetadata, List.length_append] at hsmall
  have hentry : ∀ k v, m.lookup k = some v → 4 + k.length + (encodeValue v).length < 2 ^ 32 := by
    intro k v hlookup
    have hmem : encodeEntry (k, v) ∈ (order.entries m).map encodeEntry :=
      List.mem_map_of_mem ((order.mem_iff m k v).mpr hlookup)
    have hle := (List.sublist_flatten_of_mem hmem).length_le
    rw [← List.flatMap_def, length_encodeEntry] at hle
    dsimp only at hle
    omega
  refine ⟨?_, fun k v hlookup => ?_, fun k v hlookup => ?_⟩
  · have hpos : ∀ entry, 0 < (encodeEntry entry).length := fun entry => by
      rw [length_encodeEntry]
      omega
    have hle := Framing.length_le_flatMap (order.entries m) hpos
    rw [order.length_entries] at hle
    omega
  · have hlt := hentry k v hlookup
    omega
  · have hlt := hentry k v hlookup
    cases v with
    | string s =>
        rw [encodeValue, List.length_append, length_str] at hlt
        show s.length < 2 ^ 32
        omega
    | int64 => trivial
    | double => trivial
    | bool => trivial

theorem encodable_of_length {order : IterOrder} {op : Op} (hsmall : (encodeOp order op).length < 2 ^ 32)
    (hdelete : op.type = .delete → op.vec = [] ∧ op.metadata = none) : op.Encodable := by
  rw [length_encodeOp] at hsmall
  by_cases htype : op.type = .delete
  · obtain ⟨hvec, hmeta⟩ := hdelete htype
    rw [if_pos htype] at hsmall
    refine ⟨by omega, by rw [hvec]; decide, fun m hm => ?_, hdelete⟩
    rw [hmeta] at hm
    cases hm
  · rw [if_neg htype] at hsmall
    refine ⟨by omega, by omega, fun m hm => ?_, hdelete⟩
    apply metadataEncodable_of_length order
    rw [hm, encodeMeta, List.length_append] at hsmall
    omega

end ToyVdb
