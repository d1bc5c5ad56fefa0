import ToyVdb.Codec.Layout

/-!
# How strict the decoder is

A record that is cut short is always rejected: no record in the layout has another one in front of it. On
arbitrary bytes the decoder is the inverse of the encoder exactly where the bytes do not start with a
record that the encoder would have written differently, or that something follows.
-/

namespace ToyVdb

open LittleEndian Reading

/-! ### What is thrown -/

/-- `std::runtime_error`. -/
def IsRuntimeError (err : Error) : Prop := ∃ what, err = .runtimeError what

theorem failsOnly_raw (n : Nat) : FailsOnly IsRuntimeError (RecordReader.raw n) := failsOnly_take ⟨_, rfl⟩ n

theorem failsOnly_u8 : FailsOnly IsRuntimeError RecordReader.u8 :=
  (failsOnly_raw 1).bind fun _ => failsOnly_pure _ _

theorem failsOnly_u32 : FailsOnly IsRuntimeError RecordReader.u32 :=
  (failsOnly_raw 4).bind fun _ => failsOnly_pure _ _

theorem failsOnly_str : FailsOnly IsRuntimeError RecordReader.str := failsOnly_u32.bind failsOnly_raw

theorem failsOnly_decodeValue (tag : UInt8) : FailsOnly IsRuntimeError (decodeValue tag) := by
  unfold decodeValue
  split
  · exact ((failsOnly_raw 8).bind fun _ => failsOnly_pure _ _).bind fun _ => failsOnly_pure _ _
  · exact ((failsOnly_raw 8).bind fun _ => failsOnly_pure _ _).bind fun _ => failsOnly_pure _ _
  · exact failsOnly_str.bind fun _ => failsOnly_pure _ _
  · exact failsOnly_u8.bind fun _ => failsOnly_pure _ _
  · exact failsOnly_throw ⟨_, rfl⟩

theorem failsOnly_decodeEntries (count : Nat) (m : Metadata) :
    FailsOnly IsRuntimeError (decodeEntries count m) := by
  induction count generalizing m with
  | zero => exact failsOnly_pure _ _
  | succ count ih =>
      exact failsOnly_str.bind fun _ => failsOnly_u8.bind fun tag =>
        (failsOnly_decodeValue tag).bind fun _ => ih _

theorem failsOnly_decodeType (byte : UInt8) : FailsOnly IsRuntimeError (decodeType byte) := by
  unfold decodeType
  split
  · exact failsOnly_pure _ _
  · exact failsOnly_pure _ _
  · exact failsOnly_pure _ _
  · exact failsOnly_throw ⟨_, rfl⟩

theorem failsOnly_decodeMeta : FailsOnly IsRuntimeError decodeMeta := by
  refine failsOnly_u8.bind fun presence => ?_
  split_ifs
  · exact (failsOnly_u32.bind fun count => failsOnly_decodeEntries count ∅).bind fun _ => failsOnly_pure _ _
  · exact failsOnly_pure _ _

theorem failsOnly_readOp : FailsOnly IsRuntimeError readOp := by
  refine failsOnly_u8.bind fun byte => (failsOnly_decodeType byte).bind fun type =>
    failsOnly_str.bind fun extId => ?_
  split_ifs
  · exact failsOnly_pure _ _
  · exact failsOnly_u32.bind fun dim =>
      ((failsOnly_raw (4 * dim)).bind fun _ => failsOnly_pure _ _).bind fun _ =>
        failsOnly_decodeMeta.bind fun _ => failsOnly_pure _ _

theorem decodeOp_error {record : Bytes} {err : Error} (h : decodeOp record = .error err) :
    IsRuntimeError err := by
  rw [decodeOp] at h
  cases hrun : readOp.run record with
  | ok r =>
      rw [hrun] at h
      cases h
  | error err' =>
      rw [hrun] at h
      cases h
      exact failsOnly_readOp record err hrun

theorem decodeOp_eq_ok_iff {record : Bytes} {op : Op} :
    decodeOp record = .ok op ↔ ∃ rest, readOp.run record = .ok (op, rest) := by
  rw [decodeOp]
  cases readOp.run record with
  | error err => simp [Except.map]
  | ok r => simp [Except.map, Prod.ext_iff]

/-! ### Encoded records in the layout -/

/-- An op whose lengths fit the format. -/
structure Op.WithinLimits (op : Op) : Prop where
  extId : op.extId.length < 2 ^ 32
  vec : op.vec.length < 2 ^ 32
  metadata : ∀ m, op.metadata = some m → MetadataEncodable m

def RawValue.ofValue : MetaValue → RawValue
  | .int64 v => .int64 v
  | .double bits => .double bits
  | .string s => .string s
  | .bool b => .bool (if b then 1 else 0)

def RawEntry.ofEntry (entry : Bytes × MetaValue) : RawEntry := (entry.1, RawValue.ofValue entry.2)

/-- The record the encoder writes. -/
def RawOp.ofOp (order : IterOrder) (op : Op) : RawOp :=
  if op.type = .delete then { type := .delete, extId := op.extId }
  else match op.metadata with
    | none => { type := op.type, extId := op.extId, vec := op.vec }
    | some m => ⟨op.type, op.extId, op.vec, 1, (order.entries m).map RawEntry.ofEntry⟩

theorem RawValue.value_ofValue (v : MetaValue) : (RawValue.ofValue v).value = v := by
  cases v with
  | bool b => cases b <;> rfl
  | _ => rfl

theorem RawValue.bytes_ofValue (v : MetaValue) : (RawValue.ofValue v).bytes = encodeValue v := by
  cases v with
  | bool b => cases b <;> rfl
  | _ => rfl

theorem RawValue.canonical_ofValue (v : MetaValue) : (RawValue.ofValue v).Canonical := by
  cases v with
  | bool b =>
      cases b
      · exact .inl rfl
      · exact .inr rfl
  | _ => trivial

theorem RawValue.Canonical.ofValue_eq {v : RawValue} (h : v.Canonical) : RawValue.ofValue v.value = v := by
  cases v with
  | bool byte => rcases h with rfl | rfl <;> rfl
  | _ => rfl

theorem RawEntry.bytes_ofEntry (entry : Bytes × MetaValue) :
    (RawEntry.ofEntry entry).bytes = encodeEntry entry := by
  rw [RawEntry.bytes, RawEntry.ofEntry, RawValue.bytes_ofValue, encodeEntry]

namespace RawOp

variable {order : IterOrder} {op : Op}

theorem bytes_ofOp (order : IterOrder) (op : Op) : (ofOp order op).bytes = encodeOp order op := by
  by_cases hdelete : op.type = .delete
  · rw [ofOp, if_pos hdelete]
    simp [bytes, encodeOp, hdelete]
  · rw [ofOp, if_neg hdelete]
    cases hmeta : op.metadata with
    | none => simp [bytes, metaBytes, encodeOp, hdelete, hmeta, encodeMeta]
    | some m =>
        simp [bytes, metaBytes, encodeOp, hdelete, hmeta, encodeMeta, encodeMetadata, List.flatMap_map,
          RawEntry.bytes_ofEntry]

theorem fits_ofOp (h : op.WithinLimits) (order : IterOrder) : (ofOp order op).Fits := by
  rw [ofOp]
  split_ifs with hdelete
  · exact ⟨h.extId, by simp, by simp, by simp, fun _ => rfl, fun _ => ⟨rfl, rfl⟩⟩
  · cases hmeta : op.metadata with
    | none => exact ⟨h.extId, h.vec, by simp, by simp, fun _ => rfl, fun heq => absurd heq hdelete⟩
    | some m =>
        have hm := h.metadata m hmeta
        refine ⟨h.extId, h.vec, ?_, ?_, fun heq => absurd heq (show (1 : UInt8) ≠ 0 by decide),
          fun heq => absurd heq hdelete⟩
        · rw [List.length_map, order.length_entries]
          exact hm.count
        · intro entry hentry
          obtain ⟨⟨k, v⟩, hlisted, rfl⟩ := List.mem_map.mp hentry
          have hlookup := (order.mem_iff m k v).mp hlisted
          refine ⟨hm.key k v hlookup, ?_⟩
          rw [RawEntry.ofEntry, RawValue.value_ofValue]
          exact hm.value k v hlookup

theorem canonical_ofOp (order : IterOrder) (op : Op) : (ofOp order op).Canonical := by
  rw [ofOp]
  split_ifs with hdelete
  · exact ⟨.inl rfl, by simp, by simp⟩
  · cases op.metadata with
    | none => exact ⟨.inl rfl, by simp, by simp⟩
    | some m =>
        refine ⟨.inr rfl, ?_, ?_⟩
        · intro entry hentry
          obtain ⟨listed, -, rfl⟩ := List.mem_map.mp hentry
          exact RawValue.canonical_ofValue listed.2
        · rw [List.map_map]
          exact order.nodup m

end RawOp

/-! ### Truncated records -/

theorem run_encodeOp {op : Op} (h : op.WithinLimits) (order : IterOrder) :
    ∃ op', readOp.run (encodeOp order op) = .ok (op', []) :=
  ⟨_, (accepts_readOp _ _ _).mpr
    ⟨_, ⟨RawOp.ofOp order op, ⟨RawOp.fits_ofOp h order, (RawOp.bytes_ofOp order op).symm⟩, rfl⟩,
      (List.append_nil _).symm⟩⟩

/-- A record that is cut short, wherever it is cut, is rejected: what the decoder reads off the
front of it, it would read off the front of the whole record too. -/
theorem truncated_record_is_rejected (order : IterOrder) (op : Op) (h : op.WithinLimits) (p : Bytes)
    (hpiece : p <+: encodeOp order op) (hne : p ≠ encodeOp order op) :
    ∃ what, decodeOp p = .error (.runtimeError what) := by
  cases hdecode : decodeOp p with
  | error err =>
      obtain ⟨what, rfl⟩ := decodeOp_error hdecode
      exact ⟨what, rfl⟩
  | ok op' =>
      obtain ⟨more, hmore⟩ := hpiece
      obtain ⟨rest, hrun⟩ := decodeOp_eq_ok_iff.mp hdecode
      obtain ⟨op'', hwhole⟩ := run_encodeOp h order
      rw [← hmore, accepts_readOp.run_append hrun more] at hwhole
      have hnil : rest ++ more = [] := (Prod.mk.inj (Except.ok.inj hwhole)).2
      rw [(List.append_eq_nil_iff.mp hnil).2, List.append_nil] at hmore
      exact absurd hmore hne

/-- A deletion that lost the last byte of its id. -/
theorem truncated_record_is_rejected_sample :
    ∃ what, decodeOp [3, 2, 0, 0, 0, 97] = .error (.runtimeError what) :=
  truncated_record_is_rejected .byKey ⟨.delete, ascii "ab", [], none⟩
    ⟨by decide, by decide, fun m hm => by cases hm⟩ [3, 2, 0, 0, 0, 97] (by decide) (by decide)

/-! ### Arbitrary bytes -/

theorem mem_of_lookup_insertEntries {entries : List (Bytes × MetaValue)} {m : Metadata} {k : Bytes}
    {v : MetaValue}
    (h : (insertEntries entries m).lookup k = some v) : (k, v) ∈ entries ∨ m.lookup k = some v := by
  induction entries generalizing m with
  | nil => exact .inr h
  | cons entry entries ih =>
      rcases ih h with hmem | hlookup
      · exact .inl (List.mem_cons_of_mem _ hmem)
      · by_cases hkey : k = entry.1
        · subst hkey
          rw [Finmap.lookup_insert] at hlookup
          cases hlookup
          exact .inl List.mem_cons_self
        · rw [Finmap.lookup_insert_of_ne _ hkey] at hlookup
          exact .inr hlookup

theorem keys_insertEntries_subset (entries : List (Bytes × MetaValue)) :
    (insertEntries entries ∅).keys ⊆ (entries.map Prod.fst).toFinset := by
  intro k hk
  rw [Finmap.mem_keys, ← Finmap.lookup_isSome, Option.isSome_iff_exists] at hk
  obtain ⟨v, hv⟩ := hk
  rcases mem_of_lookup_insertEntries hv with hmem | hlookup
  · exact List.mem_toFinset.mpr (List.mem_map.mpr ⟨(k, v), hmem, rfl⟩)
  · rw [Finmap.lookup_empty] at hlookup
    cases hlookup

theorem RawOp.Fits.withinLimits {r : RawOp} (h : r.Fits) : r.op.WithinLimits := by
  refine ⟨h.extId, h.vec, fun m hm => ?_⟩
  rw [RawOp.op] at hm
  dsimp only at hm
  split_ifs at hm
  cases hm
  have hentry : ∀ k v, (insertEntries (r.entries.map RawEntry.entry) ∅).lookup k = some v →
      k.length < 2 ^ 32 ∧ v.Encodable := by
    intro k v hlookup
    rcases mem_of_lookup_insertEntries hlookup with hmem | hnone
    · obtain ⟨entry, hentry, heq⟩ := List.mem_map.mp hmem
      cases heq
      exact h.entries entry hentry
    · rw [Finmap.lookup_empty] at hnone
      cases hnone
  refine ⟨?_, fun k v hlookup => (hentry k v hlookup).1, fun k v hlookup => (hentry k v hlookup).2⟩
  calc (insertEntries (r.entries.map RawEntry.entry) ∅).keys.card
      ≤ ((r.entries.map RawEntry.entry).map Prod.fst).toFinset.card :=
        Finset.card_le_card (keys_insertEntries_subset _)
    _ ≤ ((r.entries.map RawEntry.entry).map Prod.fst).length := List.toFinset_card_le _
    _ < 2 ^ 32 := by
      rw [List.length_map, List.length_map]
      exact h.count

/-- An order that lists the entries of one map as given. -/
def IterOrder.listing (entries : List (Bytes × MetaValue)) (hnodup : (entries.map Prod.fst).Nodup) :
    IterOrder where
  entries m := if m = insertEntries entries ∅ then entries else IterOrder.byKey.entries m
  nodup m := by
    split_ifs
    · exact hnodup
    · exact IterOrder.byKey.nodup m
  mem_iff m k v := by
    split_ifs with hm
    · rw [hm]
      constructor
      · exact lookup_insertEntries_of_mem entries ∅ hnodup
      · intro hlookup
        rcases mem_of_lookup_insertEntries hlookup with hmem | hnone
        · exact hmem
        · rw [Finmap.lookup_empty] at hnone
          cases hnone
    · exact IterOrder.byKey.mem_iff m k v

theorem map_ofEntry_entry {entries : List RawEntry} (h : ∀ entry ∈ entries, entry.2.Canonical) :
    (entries.map RawEntry.entry).map RawEntry.ofEntry = entries := by
  rw [List.map_map]
  refine (List.map_congr_left fun entry hentry => ?_).trans (List.map_id _)
  exact Prod.ext rfl (h entry hentry).ofValue_eq

/-- A canonical record is the one that the encoder writes, in the order of its entries. -/
theorem RawOp.Canonical.ofOp_eq {r : RawOp} (h : r.Canonical) (hfits : r.Fits) :
    ∃ order, ofOp order r.op = r := by
  have hkeys : ((r.entries.map RawEntry.entry).map Prod.fst).Nodup := by
    rw [List.map_map]
    exact h.keys
  refine ⟨IterOrder.listing (r.entries.map RawEntry.entry) hkeys, ?_⟩
  obtain ⟨type, extId, vec, presence, entries⟩ := r
  by_cases hdelete : type = .delete
  · obtain ⟨hvec, hpresence⟩ := hfits.delete hdelete
    have hentries := hfits.absent hpresence
    dsimp only at hvec hpresence hentries
    subst hdelete hvec hpresence hentries
    rfl
  · have hbytes := h.presence
    dsimp only at hbytes
    rcases hbytes with rfl | rfl
    · have hentries := hfits.absent rfl
      dsimp only at hentries
      subst hentries
      simp [ofOp, RawOp.op, hdelete]
    · have hmap := map_ofEntry_entry h.bools
      dsimp only at hmap
      simp [ofOp, RawOp.op, hdelete, IterOrder.listing, hmap]

/-- The decoder keeps to the layout on the given bytes: it returns an op only if they are, in full, what the
encoder writes for it in some order, and throws where they are an encoding of nothing. -/
def KeepsToLayout (bs : Bytes) : Prop :=
  (∀ op, decodeOp bs = .ok op → ∃ order, encodeOp order op = bs) ∧
    ((¬ ∃ op order, encodeOp order op = bs) → ∃ what, decodeOp bs = .error (.runtimeError what))

/-- The bytes do not start with a record that is followed by something, or that has a presence or a bool byte
other than 0 and 1, or a key twice. -/
def NoLeniency (bs : Bytes) : Prop :=
  ∀ (r : RawOp) (rest : Bytes), r.Fits → bs = r.bytes ++ rest → rest = [] ∧ r.Canonical

theorem decodeOp_bytes {r : RawOp} (hfits : r.Fits) (rest : Bytes) : decodeOp (r.bytes ++ rest) = .ok r.op :=
  decodeOp_eq_ok_iff.mpr ⟨rest, (accepts_readOp _ _ _).mpr ⟨r.bytes, ⟨r, ⟨hfits, rfl⟩, rfl⟩, rfl⟩⟩

/-- The decoder keeps to the layout exactly on the bytes on which it does not have to be lenient. -/
theorem decoder_keeps_to_layout_iff (bs : Bytes) : KeepsToLayout bs ↔ NoLeniency bs := by
  constructor
  · rintro ⟨hencodes, -⟩ r rest hfits rfl
    obtain ⟨order, hencode⟩ := hencodes r.op (decodeOp_bytes hfits rest)
    -- The same bytes read as what the encoder writes, which has nothing behind it.
    have hread : (RawOp.ofOp order r.op).bytes ++ [] = r.bytes ++ rest := by
      rw [List.append_nil, RawOp.bytes_ofOp, hencode]
    obtain ⟨hsame, hnil⟩ := accepts_rawOp.unique ⟨RawOp.fits_ofOp hfits.withinLimits order, rfl⟩
      ⟨hfits, rfl⟩ hread
    exact ⟨hnil.symm, hsame ▸ RawOp.canonical_ofOp order r.op⟩
  · intro hstrict
    have hencodes : ∀ op, decodeOp bs = .ok op → ∃ order, encodeOp order op = bs := by
      intro op hdecode
      obtain ⟨rest, hrun⟩ := decodeOp_eq_ok_iff.mp hdecode
      obtain ⟨_, ⟨r, ⟨hfits, rfl⟩, rfl⟩, hbs⟩ := (accepts_readOp _ _ _).mp hrun
      obtain ⟨rfl, hcanonical⟩ := hstrict r rest hfits hbs
      obtain ⟨order, horder⟩ := hcanonical.ofOp_eq hfits
      refine ⟨order, ?_⟩
      rw [← RawOp.bytes_ofOp, horder, hbs, List.append_nil]
    refine ⟨hencodes, fun hnone => ?_⟩
    cases hdecode : decodeOp bs with
    | ok op =>
        obtain ⟨order, hencode⟩ := hencodes op hdecode
        exact absurd ⟨op, order, hencode⟩ hnone
    | error err =>
        obtain ⟨what, rfl⟩ := decodeOp_error hdecode
        exact ⟨what, rfl⟩

/-- A deletion with a byte behind it is taken for the deletion. -/
theorem trailing_byte_is_accepted : ¬ KeepsToLayout [3, 0, 0, 0, 0, 7] := by
  rintro ⟨hencodes, -⟩
  obtain ⟨order, hencode⟩ := hencodes ⟨.delete, [], [], none⟩ (by decide)
  exact absurd hencode (by simp [encodeOp, OpType.byte, Writer.u8, Writer.str, Writer.u32,
    LittleEndian.bytes])

end ToyVdb
