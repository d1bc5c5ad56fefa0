import ToyVdb.Codec.RoundTrip

/-!
# The layout the decoder accepts

The round trip says what becomes of records that were encoded. Here the decoder is given arbitrary bytes.
It accepts a record in the layout of the format, of which `RawOp` keeps every byte that was read: the
presence byte, the byte of each bool, and the entries with their keys as they come. The decoder reads more
than the encoder writes. Any presence or bool byte other than 0 counts as 1, of a repeated key the last
value is kept, and what follows the record is not looked at.
-/

namespace ToyVdb

open LittleEndian Reading

/-! ### Fields -/

theorem accepts_number {α : Type} (width : Nat) (f : Nat → α) (g : α → Nat) (good : α → Prop)
    (hf : ∀ n < 256 ^ width, good (f n) ∧ g (f n) = n) (hg : ∀ a, good a → g a < 256 ^ width ∧ f (g a) = a) :
    Accepts (do return f (value (← RecordReader.raw width)) : RecordReader α)
      fun a bs => good a ∧ bs = bytes width (g a) := by
  refine ((accepts_take _ width).bind fun bs => accepts_pure (f (value bs))).congr fun a bs => ?_
  constructor
  · rintro ⟨x, xs, ys, ⟨rfl, hlen⟩, ⟨rfl, rfl⟩, rfl⟩
    obtain ⟨hgood, hvalue⟩ := hf (value xs) (hlen ▸ value_lt xs)
    refine ⟨hgood, ?_⟩
    rw [List.append_nil, hvalue, ← hlen, bytes_value]
  · rintro ⟨hgood, rfl⟩
    obtain ⟨hlt, hvalue⟩ := hg a hgood
    refine ⟨_, _, [], ⟨rfl, length_bytes width _⟩, ⟨?_, rfl⟩, (List.append_nil _).symm⟩
    rw [value_bytes_of_lt hlt, hvalue]

theorem accepts_u8 : Accepts RecordReader.u8 fun b bs => bs = Writer.u8 b := by
  refine (accepts_number _ _ UInt8.toNat (fun _ => True) (fun n hn => ⟨trivial, ?_⟩)
    (fun b _ => ⟨b.toNat_lt, UInt8.ofNat_toNat⟩)).congr fun b bs => ?_
  · exact UInt8.toNat_ofNat_of_lt' (by simpa using hn)
  · simp [bytes, Writer.u8]

theorem accepts_u32 : Accepts RecordReader.u32 fun n bs => n < 2 ^ 32 ∧ bs = Writer.u32 n :=
  accepts_number _ _ id _ (fun _ hn => ⟨hn, rfl⟩) (fun _ hn => ⟨hn, rfl⟩)

theorem accepts_f64 : Accepts RecordReader.f64 fun bits bs => bs = Writer.f64 bits := by
  refine (accepts_number _ _ UInt64.toNat (fun _ => True) (fun n hn => ⟨trivial, ?_⟩)
    (fun bits _ => ⟨bits.toNat_lt, UInt64.ofNat_toNat⟩)).congr fun bits bs => ?_
  · exact UInt64.toNat_ofNat_of_lt' hn
  · simp [Writer.f64]

theorem accepts_i64 : Accepts RecordReader.i64 fun v bs => bs = Writer.i64 v := by
  have hnumber := accepts_number 8 (fun n => (UInt64.ofNat n).toInt64)
    (fun v : Int64 => v.toUInt64.toNat) (fun _ => True)
    (fun n hn => ⟨trivial, UInt64.toNat_ofNat_of_lt' hn⟩)
    (fun v _ => ⟨v.toUInt64.toNat_lt, by rw [UInt64.ofNat_toNat]; rfl⟩)
  refine hnumber.congr fun v bs => ?_
  simp [Writer.i64]

theorem accepts_str : Accepts RecordReader.str fun s bs => s.length < 2 ^ 32 ∧ bs = Writer.str s := by
  refine (accepts_u32.bind fun n => accepts_take _ n).congr fun s bs => ?_
  constructor
  · rintro ⟨n, xs, ys, ⟨hn, rfl⟩, ⟨rfl, rfl⟩, rfl⟩
    exact ⟨hn, rfl⟩
  · rintro ⟨hs, rfl⟩
    exact ⟨_, _, _, ⟨hs, rfl⟩, ⟨rfl, rfl⟩, rfl⟩

theorem floats_unpack (n : Nat) (bs : Bytes) (hlen : bs.length = 4 * n) :
    (RecordReader.unpack n bs).length = n ∧ Writer.floats (RecordReader.unpack n bs) = bs := by
  induction n generalizing bs with
  | zero => exact ⟨rfl, (List.length_eq_zero_iff.mp hlen).symm⟩
  | succ n ih =>
      obtain ⟨hcount, hrest⟩ := ih (bs.drop 4) (by rw [List.length_drop]; omega)
      have htake : (bs.take 4).length = 4 := List.length_take_of_le (by omega)
      have hhead : bytes 4 (UInt32.ofNat (value (bs.take 4))).toNat = bs.take 4 := by
        have hlt := value_lt (bs.take 4)
        have hbytes := bytes_value (bs.take 4)
        rw [htake] at hlt hbytes
        rw [UInt32.toNat_ofNat_of_lt' hlt, hbytes]
      refine ⟨by rw [RecordReader.unpack, List.length_cons, hcount], ?_⟩
      change bytes 4 _ ++ Writer.floats (RecordReader.unpack n (bs.drop 4)) = bs
      rw [hhead, hrest, List.take_append_drop]

theorem accepts_floats (n : Nat) :
    Accepts (RecordReader.floats n) fun vec bs => vec.length = n ∧ bs = Writer.floats vec := by
  refine ((accepts_take _ (4 * n)).bind fun bs => accepts_pure (RecordReader.unpack n bs)).congr
    fun vec bs => ?_
  constructor
  · rintro ⟨x, xs, ys, ⟨rfl, hlen⟩, ⟨rfl, rfl⟩, rfl⟩
    obtain ⟨hcount, hfloats⟩ := floats_unpack n xs hlen
    exact ⟨hcount, by rw [List.append_nil, hfloats]⟩
  · rintro ⟨rfl, rfl⟩
    exact ⟨_, _, [], ⟨rfl, length_floats vec⟩, ⟨(unpack_floats vec).symm, rfl⟩, (List.append_nil _).symm⟩

/-! ### Records, byte by byte -/

/-- A metadata value, a bool by its byte. -/
inductive RawValue
  | int64 (v : Int64)
  | double (bits : UInt64)
  | string (s : Bytes)
  | bool (byte : UInt8)

namespace RawValue

def value : RawValue → MetaValue
  | .int64 v => .int64 v
  | .double bits => .double bits
  | .string s => .string s
  | .bool byte => .bool (decide (byte ≠ 0))

def payload : RawValue → Bytes
  | .bool byte => Writer.u8 byte
  | v => v.value.payload

def bytes (v : RawValue) : Bytes := Writer.u8 v.value.tag ++ v.payload

/-- A byte the encoder writes. -/
def Canonical : RawValue → Prop
  | .bool byte => byte = 0 ∨ byte = 1
  | _ => True

end RawValue

abbrev RawEntry := Bytes × RawValue

namespace RawEntry

def bytes (entry : RawEntry) : Bytes := Writer.str entry.1 ++ entry.2.bytes

def entry (entry : RawEntry) : Bytes × MetaValue := (entry.1, entry.2.value)

def Fits (entry : RawEntry) : Prop := entry.1.length < 2 ^ 32 ∧ entry.2.value.Encodable

end RawEntry

/-- A record with its presence byte and its entries as they come. -/
structure RawOp where
  type : OpType
  extId : Bytes
  vec : Vec := []
  presence : UInt8 := 0
  entries : List RawEntry := []

namespace RawOp

def metaBytes (r : RawOp) : Bytes :=
  Writer.u8 r.presence ++
    if r.presence = 0 then [] else Writer.u32 r.entries.length ++ r.entries.flatMap RawEntry.bytes

def bytes (r : RawOp) : Bytes :=
  Writer.u8 r.type.byte ++ (Writer.str r.extId ++
    if r.type = .delete then []
    else Writer.u32 r.vec.length ++ (Writer.floats r.vec ++ r.metaBytes))

/-- The op the record stands for. -/
def op (r : RawOp) : Op :=
  ⟨r.type, r.extId, r.vec,
    if r.presence = 0 then none else some (insertEntries (r.entries.map RawEntry.entry) ∅)⟩

/-- The lengths fit, and what is not in the record is empty. -/
structure Fits (r : RawOp) : Prop where
  extId : r.extId.length < 2 ^ 32
  vec : r.vec.length < 2 ^ 32
  count : r.entries.length < 2 ^ 32
  entries : ∀ entry ∈ r.entries, entry.Fits
  absent : r.presence = 0 → r.entries = []
  delete : r.type = .delete → r.vec = [] ∧ r.presence = 0

/-- As the encoder writes it. -/
structure Canonical (r : RawOp) : Prop where
  presence : r.presence = 0 ∨ r.presence = 1
  bools : ∀ entry ∈ r.entries, entry.2.Canonical
  keys : (r.entries.map Prod.fst).Nodup

end RawOp

/-! ### Reading them -/

namespace RecordReader

def rawValue (tag : UInt8) : RecordReader RawValue :=
  match tag with
  | 0 => do return .int64 (← i64)
  | 1 => do return .double (← f64)
  | 2 => do return .string (← str)
  | 3 => do return .bool (← u8)
  | _ => throw (.runtimeError "decode_op: unknown metadata value type")

def rawEntries : Nat → RecordReader (List RawEntry)
  | 0 => pure []
  | count + 1 => do
      let key ← str
      let tag ← u8
      let v ← rawValue tag
      let rest ← rawEntries count
      return (key, v) :: rest

/-- What stands behind a presence byte. -/
def rawSection (presence : UInt8) : RecordReader (UInt8 × List RawEntry) := do
  if presence ≠ 0 then return (presence, ← rawEntries (← u32)) else return (presence, [])

def rawMeta : RecordReader (UInt8 × List RawEntry) := do rawSection (← u8)

/-- What stands behind the external id. -/
def rawBody (type : OpType) (extId : Bytes) : RecordReader RawOp := do
  if type = .delete then return ⟨type, extId, [], 0, []⟩
  else
    let dim ← u32
    let vec ← floats dim
    let (presence, entries) ← rawMeta
    return ⟨type, extId, vec, presence, entries⟩

def rawOp : RecordReader RawOp := do
  let type ← decodeType (← u8)
  rawBody type (← str)

end RecordReader

theorem decodeValue_eq (tag : UInt8) : decodeValue tag = RawValue.value <$> RecordReader.rawValue tag := by
  unfold decodeValue RecordReader.rawValue
  split
  all_goals try simp only [map_bind, map_pure, RawValue.value]
  rfl

theorem decodeEntries_eq (count : Nat) (m : Metadata) :
    decodeEntries count m
      = (fun entries => insertEntries (entries.map RawEntry.entry) m) <$> RecordReader.rawEntries count := by
  induction count generalizing m with
  | zero => simp [decodeEntries, RecordReader.rawEntries, insertEntries]
  | succ count ih =>
      simp only [decodeEntries, RecordReader.rawEntries, decodeValue_eq, ih, map_bind, map_pure,
        bind_map_left]
      rfl

theorem decodeMeta_eq : decodeMeta = (fun r => if r.1 = 0 then none
    else some (insertEntries (r.2.map RawEntry.entry) ∅)) <$> RecordReader.rawMeta := by
  simp only [decodeMeta, decodeMetadata, RecordReader.rawMeta, RecordReader.rawSection,
    decodeEntries_eq, map_bind]
  congr 1
  funext presence
  by_cases hpresent : presence = 0
  · simp [hpresent]
  · simp [hpresent]

/-- The decoder reads the record byte by byte and then forgets how it was written. -/
theorem readOp_eq : readOp = RawOp.op <$> RecordReader.rawOp := by
  simp only [readOp, RecordReader.rawOp, RecordReader.rawBody, decodeMeta_eq, map_bind]
  congr 1
  funext byte
  congr 1
  funext type
  congr 1
  funext extId
  by_cases hdelete : type = .delete
  · simp [hdelete, RawOp.op]
  · simp [hdelete, RawOp.op]

/-! ### What is accepted -/

theorem accepts_rawValue (tag : UInt8) :
    Accepts (RecordReader.rawValue tag) fun v bs => v.value.tag = tag ∧ v.value.Encodable ∧
      bs = v.payload := by
  unfold RecordReader.rawValue
  split
  · refine (accepts_i64.map RawValue.int64).congr fun v bs => ?_
    cases v <;> simp [RawValue.value, RawValue.payload, MetaValue.tag, MetaValue.payload, MetaValue.Encodable]
  · refine (accepts_f64.map RawValue.double).congr fun v bs => ?_
    cases v <;> simp [RawValue.value, RawValue.payload, MetaValue.tag, MetaValue.payload, MetaValue.Encodable]
  · refine (accepts_str.map RawValue.string).congr fun v bs => ?_
    cases v <;> simp [RawValue.value, RawValue.payload, MetaValue.tag, MetaValue.payload, MetaValue.Encodable]
  · refine (accepts_u8.map RawValue.bool).congr fun v bs => ?_
    cases v <;> simp [RawValue.value, RawValue.payload, MetaValue.tag, MetaValue.payload, MetaValue.Encodable]
  · rename_i h0 h1 h2 h3
    refine (accepts_throw _).congr fun v bs => ?_
    cases v <;> simp [RawValue.value, MetaValue.tag, Ne.symm h0, Ne.symm h1, Ne.symm h2, Ne.symm h3]

theorem accepts_rawEntries (count : Nat) :
    Accepts (RecordReader.rawEntries count) fun entries bs =>
      entries.length = count ∧ (∀ entry ∈ entries, entry.Fits) ∧ bs = entries.flatMap RawEntry.bytes := by
  induction count with
  | zero =>
      refine (accepts_pure []).congr fun entries bs => ?_
      constructor
      · rintro ⟨rfl, rfl⟩
        simp
      · rintro ⟨hlen, -, rfl⟩
        rw [List.length_eq_zero_iff.mp hlen]
        exact ⟨rfl, rfl⟩
  | succ count ih =>
      refine (accepts_str.bind fun key => accepts_u8.bind fun tag => (accepts_rawValue tag).bind fun v =>
        ih.bind fun rest => accepts_pure ((key, v) :: rest)).congr fun entries bs => ?_
      constructor
      · rintro ⟨key, _, _, ⟨hkey, rfl⟩, ⟨tag, _, _, rfl, ⟨v, _, _, ⟨rfl, hv, rfl⟩,
          ⟨rest, _, _, ⟨rfl, hrest, rfl⟩, ⟨rfl, rfl⟩, rfl⟩, rfl⟩, rfl⟩, rfl⟩
        refine ⟨rfl, ?_, ?_⟩
        · intro entry hentry
          rcases List.mem_cons.mp hentry with rfl | hentry
          · exact ⟨hkey, hv⟩
          · exact hrest entry hentry
        · simp [RawEntry.bytes, RawValue.bytes]
      · rintro ⟨hlen, hfits, rfl⟩
        obtain ⟨⟨key, v⟩, rest, rfl⟩ := List.exists_cons_of_length_eq_add_one hlen
        obtain ⟨hkey, hv⟩ := hfits (key, v) List.mem_cons_self
        refine ⟨key, _, _, ⟨hkey, rfl⟩, ⟨_, _, _, rfl, ⟨v, _, _, ⟨rfl, hv, rfl⟩, ⟨rest, _, _, ⟨?_, ?_, rfl⟩,
          ⟨rfl, rfl⟩, rfl⟩, rfl⟩, rfl⟩, ?_⟩
        · simpa using hlen
        · exact fun entry hentry => hfits entry (List.mem_cons_of_mem _ hentry)
        · simp [RawEntry.bytes, RawValue.bytes]

theorem accepts_decodeType (byte : UInt8) :
    Accepts (decodeType byte) fun type bs => type.byte = byte ∧ bs = [] := by
  unfold decodeType
  split
  · refine (accepts_pure _).congr fun type bs => ?_
    cases type <;> simp [OpType.byte]
  · refine (accepts_pure _).congr fun type bs => ?_
    cases type <;> simp [OpType.byte]
  · refine (accepts_pure _).congr fun type bs => ?_
    cases type <;> simp [OpType.byte]
  · rename_i h1 h2 h3
    refine (accepts_throw _).congr fun type bs => ?_
    cases type <;> simp [OpType.byte, Ne.symm h1, Ne.symm h2, Ne.symm h3]

theorem accepts_rawSection (presence : UInt8) :
    Accepts (RecordReader.rawSection presence) fun r bs =>
      r.1 = presence ∧ r.2.length < 2 ^ 32 ∧ (∀ entry ∈ r.2, entry.Fits) ∧ (r.1 = 0 → r.2 = []) ∧
      bs = if r.1 = 0 then [] else Writer.u32 r.2.length ++ r.2.flatMap RawEntry.bytes := by
  rw [RecordReader.rawSection]
  by_cases habsent : presence = 0
  · rw [if_neg (not_not.mpr habsent)]
    refine (accepts_pure _).congr fun r bs => ?_
    constructor
    · rintro ⟨rfl, rfl⟩
      simp [habsent]
    · rintro ⟨rfl, -, -, hnil, rfl⟩
      rw [if_pos habsent]
      exact ⟨Prod.ext rfl (hnil habsent), rfl⟩
  · rw [if_pos habsent]
    refine (accepts_u32.bind fun count => (accepts_rawEntries count).bind fun entries =>
      accepts_pure (presence, entries)).congr fun r bs => ?_
    constructor
    · rintro ⟨count, _, _, ⟨hcount, rfl⟩, ⟨entries, _, _, ⟨rfl, hfits, rfl⟩, ⟨rfl, rfl⟩, rfl⟩, rfl⟩
      refine ⟨rfl, hcount, hfits, fun hzero => absurd hzero habsent, ?_⟩
      rw [if_neg habsent, List.append_nil]
    · rintro ⟨rfl, hcount, hfits, -, rfl⟩
      refine ⟨_, _, _, ⟨hcount, rfl⟩, ⟨r.2, _, _, ⟨rfl, hfits, rfl⟩, ⟨rfl, rfl⟩, rfl⟩, ?_⟩
      rw [if_neg habsent, List.append_nil]

theorem accepts_rawMeta :
    Accepts RecordReader.rawMeta fun r bs => r.2.length < 2 ^ 32 ∧ (∀ entry ∈ r.2, entry.Fits) ∧
      (r.1 = 0 → r.2 = []) ∧ bs = Writer.u8 r.1 ++
        if r.1 = 0 then [] else Writer.u32 r.2.length ++ r.2.flatMap RawEntry.bytes := by
  refine (accepts_u8.bind accepts_rawSection).congr fun r bs => ?_
  constructor
  · rintro ⟨presence, _, _, rfl, ⟨rfl, hcount, hfits, hnil, rfl⟩, rfl⟩
    exact ⟨hcount, hfits, hnil, rfl⟩
  · rintro ⟨hcount, hfits, hnil, rfl⟩
    exact ⟨r.1, _, _, rfl, ⟨rfl, hcount, hfits, hnil, rfl⟩, rfl⟩

theorem accepts_rawBody (type : OpType) {extId : Bytes} (hextId : extId.length < 2 ^ 32) :
    Accepts (RecordReader.rawBody type extId) fun r bs =>
      r.type = type ∧ r.extId = extId ∧ r.Fits ∧
        bs = if r.type = .delete then []
          else Writer.u32 r.vec.length ++ (Writer.floats r.vec ++ r.metaBytes) := by
  rw [RecordReader.rawBody]
  by_cases hdelete : type = .delete
  · rw [if_pos hdelete]
    refine (accepts_pure _).congr fun r bs => ?_
    constructor
    · rintro ⟨rfl, rfl⟩
      refine ⟨rfl, rfl, ⟨hextId, by simp, by simp, by simp, fun _ => rfl, fun _ => ⟨rfl, rfl⟩⟩, ?_⟩
      rw [if_pos hdelete]
    · rintro ⟨rfl, rfl, hfits, rfl⟩
      obtain ⟨hvec, habsent⟩ := hfits.delete hdelete
      have hentries := hfits.absent habsent
      rw [if_pos hdelete]
      obtain ⟨type, extId, vec, presence, entries⟩ := r
      dsimp only at hvec habsent hentries
      subst hvec habsent hentries
      exact ⟨rfl, rfl⟩
  · rw [if_neg hdelete]
    refine (accepts_u32.bind fun dim => (accepts_floats dim).bind fun vec => accepts_rawMeta.bind fun m =>
      accepts_pure (⟨type, extId, vec, m.1, m.2⟩ : RawOp)).congr fun r bs => ?_
    constructor
    · rintro ⟨dim, _, _, ⟨hdim, rfl⟩, ⟨vec, _, _, ⟨rfl, rfl⟩, ⟨m, _, _, ⟨hcount, hfits, hnil, rfl⟩,
        ⟨rfl, rfl⟩, rfl⟩, rfl⟩, rfl⟩
      refine ⟨rfl, rfl, ⟨hextId, hdim, hcount, hfits, hnil, fun h => absurd h hdelete⟩, ?_⟩
      rw [if_neg hdelete, List.append_nil]
      rfl
    · rintro ⟨rfl, rfl, hfits, rfl⟩
      refine ⟨_, _, _, ⟨hfits.vec, rfl⟩, ⟨r.vec, _, _, ⟨rfl, rfl⟩, ⟨(r.presence, r.entries), _, _,
        ⟨hfits.count, hfits.entries, hfits.absent, rfl⟩, ⟨rfl, rfl⟩, rfl⟩, rfl⟩, ?_⟩
      rw [if_neg hdelete, List.append_nil]
      rfl

/-- The records that are accepted are those in the layout, and each can be read in one way only. -/
theorem accepts_rawOp : Accepts RecordReader.rawOp fun r bs => r.Fits ∧ bs = r.bytes := by
  refine (accepts_u8.bind fun byte => (accepts_decodeType byte).bind fun type =>
    accepts_str.bind_of fun extId _ hextId => accepts_rawBody type hextId.1).congr fun r bs => ?_
  constructor
  · rintro ⟨byte, _, _, rfl, ⟨type, _, _, ⟨rfl, rfl⟩, ⟨extId, _, _, ⟨-, rfl⟩,
      ⟨rfl, rfl, hfits, rfl⟩, rfl⟩, rfl⟩, rfl⟩
    exact ⟨hfits, rfl⟩
  · rintro ⟨hfits, rfl⟩
    exact ⟨_, _, _, rfl, ⟨r.type, _, _, ⟨rfl, rfl⟩, ⟨r.extId, _, _, ⟨hfits.extId, rfl⟩,
      ⟨rfl, rfl, hfits, rfl⟩, rfl⟩, rfl⟩, rfl⟩

theorem accepts_readOp : Accepts readOp fun op bs => ∃ r : RawOp, (r.Fits ∧ bs = r.bytes) ∧ op = r.op := by
  rw [readOp_eq]
  exact accepts_rawOp.map RawOp.op

end ToyVdb
