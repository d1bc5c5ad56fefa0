import Mathlib.Data.Finset.Sort
import Mathlib.Data.List.Lex
import ToyVdb.Metadata
import ToyVdb.Lib.LittleEndian
import ToyVdb.Lib.Reading

/-!
# The op codec

The logical operation, and its byte record as the write-ahead log and the snapshots hold it:

`[u8 type][u32 ext_len][ext bytes]`, and unless the op is a `Delete`,
`[u32 dim][dim * f32]` and an optional metadata section behind a presence byte.

The writer is a byte string under construction, so it is modelled by the bytes it produces; the reader
is a position in a span, modelled by the bytes still unread.
-/

namespace ToyVdb

open LittleEndian Reading

/-- Logical mutation kinds, with their byte on disk. -/
inductive OpType
  | insert | update | delete
deriving DecidableEq, Repr

def OpType.byte : OpType → UInt8
  | .insert => 1
  | .update => 2
  | .delete => 3

/-- A logical operation: the universal write contract. -/
structure Op where
  type : OpType
  extId : Bytes
  vec : Vec
  metadata : Option Metadata
deriving DecidableEq

/-- An order in which the unordered metadata maps are iterated: any listing of each map's entries. -/
structure IterOrder where
  entries : Metadata → List (Bytes × MetaValue)
  nodup : ∀ m, ((entries m).map Prod.fst).Nodup
  mem_iff : ∀ m k v, (k, v) ∈ entries m ↔ m.lookup k = some v

/-- Byte strings in lexicographic order. -/
def keyLe (a b : Bytes) : Prop := a.map UInt8.toNat ≤ b.map UInt8.toNat

instance : DecidableRel keyLe := fun a b =>
  inferInstanceAs (Decidable (a.map UInt8.toNat ≤ b.map UInt8.toNat))

instance : IsTrans Bytes keyLe := ⟨fun _ _ _ h k => le_trans (α := List Nat) h k⟩

instance : Std.Total keyLe := ⟨fun _ _ => le_total (α := List Nat) _ _⟩

instance : Std.Antisymm keyLe := ⟨fun _ _ h k =>
  List.map_injective_iff.mpr (fun _ _ heq => UInt8.toNat_inj.mp heq) (le_antisymm (α := List Nat) h k)⟩

/-- One such order: by ascending key. -/
def IterOrder.byKey : IterOrder where
  entries m := (m.keys.sort keyLe).filterMap fun k => (m.lookup k).map (k, ·)
  nodup m := by
    have hkeys : List.Sublist (((m.keys.sort keyLe).filterMap fun k => (m.lookup k).map (k, ·)).map Prod.fst)
        (m.keys.sort keyLe) := by
      generalize m.keys.sort keyLe = keys
      induction keys with
      | nil => exact List.Sublist.slnil
      | cons k keys ih =>
          rw [List.filterMap_cons]
          cases m.lookup k with
          | none => exact ih.cons k
          | some v => exact ih.cons_cons k
    exact hkeys.nodup (Finset.sort_nodup _ _)
  mem_iff m k v := by
    rw [List.mem_filterMap]
    constructor
    · rintro ⟨k', -, hentry⟩
      obtain ⟨v', hv', heq⟩ := Option.map_eq_some_iff.mp hentry
      cases heq
      exact hv'
    · intro hlookup
      refine ⟨k, ?_, by rw [hlookup]; rfl⟩
      rw [Finset.mem_sort, Finmap.mem_keys, ← Finmap.lookup_isSome, hlookup]
      rfl

/-! ### Writer -/

namespace Writer

def u8 (v : UInt8) : Bytes := [v]
def u32 (n : Nat) : Bytes := bytes 4 n
def i64 (v : Int64) : Bytes := bytes 8 v.toUInt64.toNat
def f64 (bits : UInt64) : Bytes := bytes 8 bits.toNat
def str (s : Bytes) : Bytes := u32 s.length ++ s
def floats (vec : Vec) : Bytes := vec.flatMap fun f => bytes 4 f.toNat

end Writer

def encodeValue : MetaValue → Bytes
  | .int64 v => Writer.u8 0 ++ Writer.i64 v
  | .double bits => Writer.u8 1 ++ Writer.f64 bits
  | .string s => Writer.u8 2 ++ Writer.str s
  | .bool b => Writer.u8 3 ++ Writer.u8 (if b then 1 else 0)

def encodeEntry (entry : Bytes × MetaValue) : Bytes := Writer.str entry.1 ++ encodeValue entry.2

def encodeMetadata (order : IterOrder) (m : Metadata) : Bytes :=
  Writer.u32 (order.entries m).length ++ (order.entries m).flatMap encodeEntry

/-- Metadata is optional: the presence byte tells "no metadata change" from "set metadata", even to an
empty map. -/
def encodeMeta (order : IterOrder) : Option Metadata → Bytes
  | some m => Writer.u8 1 ++ encodeMetadata order m
  | none => Writer.u8 0

/-- Serialize a logical op to a byte record. -/
def encodeOp (order : IterOrder) (op : Op) : Bytes :=
  Writer.u8 op.type.byte ++ (Writer.str op.extId ++
    if op.type = .delete then []
    else Writer.u32 op.vec.length ++ (Writer.floats op.vec ++ encodeMeta order op.metadata))

/-! ### Reader -/

/-- The decoder's cursor: it throws `std::runtime_error` when a field is cut off. -/
abbrev RecordReader := Reader UInt8 Error

namespace RecordReader

def raw (n : Nat) : RecordReader Bytes := take (.runtimeError "decode_op: truncated record") n
def u8 : RecordReader UInt8 := do return UInt8.ofNat (value (← raw 1))
def u32 : RecordReader Nat := do return value (← raw 4)
def i64 : RecordReader Int64 := do return (UInt64.ofNat (value (← raw 8))).toInt64
def f64 : RecordReader UInt64 := do return UInt64.ofNat (value (← raw 8))
def str : RecordReader Bytes := do raw (← u32)

/-- `n` floats laid out in memory one after the other. -/
def unpack : Nat → Bytes → Vec
  | 0, _ => []
  | n + 1, bs => UInt32.ofNat (value (bs.take 4)) :: unpack n (bs.drop 4)

def floats (n : Nat) : RecordReader Vec := do return unpack n (← raw (4 * n))

end RecordReader

def decodeValue (tag : UInt8) : RecordReader MetaValue :=
  match tag with
  | 0 => do return .int64 (← RecordReader.i64)
  | 1 => do return .double (← RecordReader.f64)
  | 2 => do return .string (← RecordReader.str)
  | 3 => do return .bool (decide ((← RecordReader.u8) ≠ 0))
  | _ => throw (.runtimeError "decode_op: unknown metadata value type")

/-- The entry loop: a repeated key is overwritten. -/
def decodeEntries : Nat → Metadata → RecordReader Metadata
  | 0, m => pure m
  | count + 1, m => do
      let key ← RecordReader.str
      let tag ← RecordReader.u8
      let v ← decodeValue tag
      decodeEntries count (m.insert key v)

def decodeMetadata : RecordReader Metadata := do decodeEntries (← RecordReader.u32) ∅

def decodeType (byte : UInt8) : RecordReader OpType :=
  match byte with
  | 1 => pure .insert
  | 2 => pure .update
  | 3 => pure .delete
  | _ => throw (.runtimeError "decode_op: unknown op type")

def decodeMeta : RecordReader (Option Metadata) := do
  if (← RecordReader.u8) ≠ 0 then return some (← decodeMetadata) else return none

/-- The body of `decode_op`, which leaves unread whatever follows the record. -/
def readOp : RecordReader Op := do
  let type ← decodeType (← RecordReader.u8)
  let extId ← RecordReader.str
  if type = .delete then return ⟨type, extId, [], none⟩
  else
    let dim ← RecordReader.u32
    let vec ← RecordReader.floats dim
    let m ← decodeMeta
    return ⟨type, extId, vec, m⟩

/-- Inverse of `encodeOp`; fails on a truncated or malformed record. The source makes room for
a string or a vector before it looks whether its bytes are there; that this allocation may
fail is not modelled. -/
def decodeOp (record : Bytes) : Except Error Op := (readOp.run record).map Prod.fst

end ToyVdb
