import ToyVdb.Codec.Model

/-!
# The op codec round trip

Every field the writer produces is read back by its reader, exactly and whatever follows it, so the
whole record is. The metadata section is the only one with a choice in it: the entries come in the
order the map is iterated, and the decoder inserts them one by one into an empty map. Since the keys
are distinct, no insertion overwrites another and the order does not show in the result.
-/

namespace ToyVdb

open LittleEndian Reading

/-! ### What the format can hold -/

/-- Lengths are written in 32 bits. -/
def MetaValue.Encodable : MetaValue → Prop
  | .string s => s.length < 2 ^ 32
  | _ => True

structure MetadataEncodable (m : Metadata) : Prop where
  count : m.keys.card < 2 ^ 32
  key : ∀ k v, m.lookup k = some v → k.length < 2 ^ 32
  value : ∀ k v, m.lookup k = some v → v.Encodable

/-- An op within the format's limits; a `Delete` carries neither vector nor metadata. -/
structure Op.Encodable (op : Op) : Prop where
  extId : op.extId.length < 2 ^ 32
  vec : op.vec.length < 2 ^ 32
  metadata : ∀ m, op.metadata = some m → MetadataEncodable m
  delete : op.type = .delete → op.vec = [] ∧ op.metadata = none

/-! ### Fields -/

theorem reads_raw (bs : Bytes) : Reads (RecordReader.raw bs.length) bs bs := reads_take _ rfl

theorem reads_u8 (b : UInt8) : Reads RecordReader.u8 (Writer.u8 b) b := by
  refine (reads_raw [b]).bind_nil ?_
  have hvalue : UInt8.ofNat (value [b]) = b := by simp [value]
  rw [hvalue]
  exact Reads.pure b

theorem reads_u32 {n : Nat} (h : n < 2 ^ 32) : Reads RecordReader.u32 (Writer.u32 n) n := by
  refine (reads_take _ (length_bytes 4 n)).bind_nil ?_
  rw [value_bytes_four h]
  exact Reads.pure n

theorem reads_f64 (bits : UInt64) : Reads RecordReader.f64 (Writer.f64 bits) bits := by
  refine (reads_take _ (length_bytes 8 bits.toNat)).bind_nil ?_
  have hlt : bits.toNat < 256 ^ 8 := bits.toNat_lt
  rw [value_bytes_of_lt hlt, UInt64.ofNat_toNat]
  exact Reads.pure bits

theorem reads_i64 (v : Int64) : Reads RecordReader.i64 (Writer.i64 v) v := by
  refine (reads_take _ (length_bytes 8 v.toUInt64.toNat)).bind_nil ?_
  have hlt : v.toUInt64.toNat < 256 ^ 8 := v.toUInt64.toNat_lt
  rw [value_bytes_of_lt hlt, UInt64.ofNat_toNat]
  exact Reads.pure v

theorem reads_str {s : Bytes} (h : s.length < 2 ^ 32) : Reads RecordReader.str (Writer.str s) s :=
  (reads_u32 h).bind (reads_raw s)

theorem length_floats (vec : Vec) : (Writer.floats vec).length = 4 * vec.length := by
  induction vec with
  | nil => rfl
  | cons f vec ih =>
      simp only [Writer.floats, List.flatMap_cons, List.length_append, length_bytes, List.length_cons] at ih ⊢
      omega

theorem unpack_floats (vec : Vec) : RecordReader.unpack vec.length (Writer.floats vec) = vec := by
  induction vec with
  | nil => rfl
  | cons f vec ih =>
      have hsplit : Writer.floats (f :: vec) = bytes 4 f.toNat ++ Writer.floats vec := rfl
      rw [List.length_cons, RecordReader.unpack, hsplit, List.take_left' (length_bytes 4 _),
        List.drop_left' (length_bytes 4 _), ih, value_bytes_four f.toNat_lt, UInt32.ofNat_toNat]

theorem reads_floats (vec : Vec) : Reads (RecordReader.floats vec.length) (Writer.floats vec) vec := by
  refine (reads_take _ (length_floats vec)).bind_nil ?_
  rw [unpack_floats]
  exact Reads.pure vec

/-! ### Metadata -/

/-- The tag of a value and the bytes after it. -/
def MetaValue.tag : MetaValue → UInt8
  | .int64 _ => 0
  | .double _ => 1
  | .string _ => 2
  | .bool _ => 3

def MetaValue.payload : MetaValue → Bytes
  | .int64 v => Writer.i64 v
  | .double bits => Writer.f64 bits
  | .string s => Writer.str s
  | .bool b => Writer.u8 (if b then 1 else 0)

theorem encodeValue_eq (v : MetaValue) : encodeValue v = Writer.u8 v.tag ++ v.payload := by
  cases v <;> rfl

theorem reads_payload {v : MetaValue} (hv : v.Encodable) : Reads (decodeValue v.tag) v.payload v := by
  cases v with
  | int64 n =>
      change Reads (RecordReader.i64 >>= fun n => pure (MetaValue.int64 n)) _ _
      exact (reads_i64 n).bind_nil (Reads.pure _)
  | double bits =>
      change Reads (RecordReader.f64 >>= fun bits => pure (MetaValue.double bits)) _ _
      exact (reads_f64 bits).bind_nil (Reads.pure _)
  | string s =>
      change Reads (RecordReader.str >>= fun s => pure (MetaValue.string s)) _ _
      exact (reads_str hv).bind_nil (Reads.pure _)
  | bool b =>
      change Reads (RecordReader.u8 >>= fun x => pure (MetaValue.bool (decide (x ≠ 0)))) _ _
      refine (reads_u8 (if b then 1 else 0)).bind_nil ?_
      cases b <;> exact Reads.pure _

/-- What the decoder's entry loop makes of a listing. -/
def insertEntries (entries : List (Bytes × MetaValue)) (m : Metadata) : Metadata :=
  entries.foldl (fun m entry => m.insert entry.1 entry.2) m

theorem reads_entries (entries : List (Bytes × MetaValue)) (m : Metadata)
    (hkey : ∀ entry ∈ entries, entry.1.length < 2 ^ 32)
    (hvalue : ∀ entry ∈ entries, entry.2.Encodable) :
    Reads (decodeEntries entries.length m) (entries.flatMap encodeEntry) (insertEntries entries m) := by
  induction entries generalizing m with
  | nil => exact Reads.pure m
  | cons entry entries ih =>
      rw [List.flatMap_cons, encodeEntry, encodeValue_eq, List.append_assoc, List.append_assoc]
      refine (reads_str (hkey entry List.mem_cons_self)).bind ?_
      refine (reads_u8 entry.2.tag).bind ?_
      refine (reads_payload (hvalue entry List.mem_cons_self)).bind ?_
      exact ih _ (fun e he => hkey e (List.mem_cons_of_mem _ he))
        (fun e he => hvalue e (List.mem_cons_of_mem _ he))

theorem lookup_insertEntries_of_notMem {k : Bytes} (entries : List (Bytes × MetaValue)) (m : Metadata)
    (h : k ∉ entries.map Prod.fst) : (insertEntries entries m).lookup k = m.lookup k := by
  induction entries generalizing m with
  | nil => rfl
  | cons entry entries ih =>
      rw [List.map_cons, List.mem_cons, not_or] at h
      rw [insertEntries, List.foldl_cons, ← insertEntries, ih _ h.2, Finmap.lookup_insert_of_ne _ h.1]

theorem lookup_insertEntries_of_mem {k : Bytes} {v : MetaValue} (entries : List (Bytes × MetaValue))
    (m : Metadata) (hnodup : (entries.map Prod.fst).Nodup) (h : (k, v) ∈ entries) :
    (insertEntries entries m).lookup k = some v := by
  induction entries generalizing m with
  | nil => cases h
  | cons entry entries ih =>
      rw [List.map_cons, List.nodup_cons] at hnodup
      rw [insertEntries, List.foldl_cons, ← insertEntries]
      rcases List.mem_cons.mp h with rfl | hmem
      · rw [lookup_insertEntries_of_notMem entries _ hnodup.1, Finmap.lookup_insert]
      · exact ih _ hnodup.2 hmem

/-- Inserting a map's entries into an empty map gives the map back, in whatever order they come. -/
theorem IterOrder.insertEntries_eq (order : IterOrder) (m : Metadata) :
    insertEntries (order.entries m) ∅ = m := by
  refine Finmap.ext_lookup fun k => ?_
  cases hk : m.lookup k with
  | some v => exact lookup_insertEntries_of_mem _ _ (order.nodup m) ((order.mem_iff m k v).mpr hk)
  | none =>
      rw [lookup_insertEntries_of_notMem, Finmap.lookup_empty]
      intro hmem
      obtain ⟨⟨k', v⟩, hentry, rfl⟩ := List.mem_map.mp hmem
      rw [(order.mem_iff m k' v).mp hentry] at hk
      cases hk

theorem IterOrder.length_entries (order : IterOrder) (m : Metadata) :
    (order.entries m).length = m.keys.card := by
  have hkeys : ((order.entries m).map Prod.fst).toFinset = m.keys := by
    ext k
    rw [List.mem_toFinset, Finmap.mem_keys, ← Finmap.lookup_isSome, Option.isSome_iff_exists]
    constructor
    · intro h
      obtain ⟨⟨k', v⟩, hentry, rfl⟩ := List.mem_map.mp h
      exact ⟨v, (order.mem_iff m k' v).mp hentry⟩
    · rintro ⟨v, hv⟩
      exact List.mem_map.mpr ⟨(k, v), (order.mem_iff m k v).mpr hv, rfl⟩
  rw [← hkeys, List.toFinset_card_of_nodup (order.nodup m), List.length_map]

theorem reads_metadata (order : IterOrder) {m : Metadata} (h : MetadataEncodable m) :
    Reads decodeMetadata (encodeMetadata order m) m := by
  have hcount : (order.entries m).length < 2 ^ 32 := order.length_entries m ▸ h.count
  refine (reads_u32 hcount).bind ?_
  have hentries := reads_entries (order.entries m) ∅
    (fun entry he => h.key entry.1 entry.2 ((order.mem_iff m _ _).mp he))
    (fun entry he => h.value entry.1 entry.2 ((order.mem_iff m _ _).mp he))
  rwa [order.insertEntries_eq] at hentries

theorem reads_meta (order : IterOrder) {meta? : Option Metadata}
    (h : ∀ m, meta? = some m → MetadataEncodable m) :
    Reads decodeMeta (encodeMeta order meta?) meta? := by
  cases meta? with
  | none => exact (reads_u8 0).bind_nil (Reads.pure none)
  | some m => exact (reads_u8 1).bind ((reads_metadata order (h m rfl)).bind_nil (Reads.pure _))

/-! ### Records -/

theorem decodeType_byte (type : OpType) : decodeType type.byte = pure type := by
  cases type <;> rfl

theorem reads_readOp (order : IterOrder) {op : Op} (h : op.Encodable) :
    Reads readOp (encodeOp order op) op := by
  refine (reads_u8 op.type.byte).bind ?_
  rw [decodeType_byte, pure_bind]
  refine (reads_str h.extId).bind ?_
  by_cases hdelete : op.type = .delete
  · obtain ⟨hvec, hmeta⟩ := h.delete hdelete
    rw [if_pos hdelete, if_pos hdelete, ← hvec, ← hmeta]
    exact Reads.pure op
  · rw [if_neg hdelete, if_neg hdelete]
    refine (reads_u32 h.vec).bind ?_
    refine (reads_floats op.vec).bind ?_
    exact (reads_meta order h.metadata).bind_nil (Reads.pure op)

theorem decodeOp_encodeOp (order : IterOrder) {op : Op} (h : op.Encodable) :
    decodeOp (encodeOp order op) = .ok op := by
  rw [decodeOp, (reads_readOp order h).run_all]
  rfl

/-- **The op codec round trip.** A record within the format's limits decodes to the op it encodes, in
whatever order its metadata was iterated, and decoding consumes all of it. -/
theorem op_codec_round_trip (order : IterOrder) (op : Op) (h : op.Encodable) :
    readOp.run (encodeOp order op) = .ok (op, []) ∧ decodeOp (encodeOp order op) = .ok op :=
  ⟨(reads_readOp order h).run_all, decodeOp_encodeOp order h⟩

private theorem metadataEncodable_insert {m : Metadata} {k : Bytes} {v : MetaValue}
    (h : MetadataEncodable m) (hcount : (m.insert k v).keys.card < 2 ^ 32) (hk : k.length < 2 ^ 32)
    (hv : v.Encodable) : MetadataEncodable (m.insert k v) := by
  refine ⟨hcount, fun k' v' hlookup => ?_, fun k' v' hlookup => ?_⟩ <;> by_cases hkey : k' = k
  · rwa [hkey]
  · exact h.key k' v' (Finmap.lookup_insert_of_ne m hkey ▸ hlookup)
  · rw [hkey, Finmap.lookup_insert] at hlookup
    exact Option.some.inj hlookup ▸ hv
  · exact h.value k' v' (Finmap.lookup_insert_of_ne m hkey ▸ hlookup)

private def sampleMetadata : Metadata :=
  ((∅ : Metadata).insert (ascii "lang") (.string (ascii "en"))).insert (ascii "year") (.int64 2024)

theorem op_codec_round_trip_sample :
    decodeOp (encodeOp IterOrder.byKey
      ⟨.update, ascii "doc-42", [0x3FC00000, 0xC0000000], some sampleMetadata⟩) =
      .ok ⟨.update, ascii "doc-42", [0x3FC00000, 0xC0000000], some sampleMetadata⟩ := by
  have hempty : MetadataEncodable ∅ :=
    ⟨by decide, fun k v hlookup => by simp at hlookup, fun k v hlookup => by simp at hlookup⟩
  refine (op_codec_round_trip _ _ ⟨by decide, by decide, fun m hm => ?_, fun hdelete => by cases hdelete⟩).2
  cases hm
  refine metadataEncodable_insert (metadataEncodable_insert hempty ?_ ?_ ?_) ?_ ?_ trivial
  all_goals first | exact (by decide : (ascii "en").length < 2 ^ 32) | decide

end ToyVdb
