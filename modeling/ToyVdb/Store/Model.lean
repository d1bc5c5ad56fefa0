import ToyVdb.Codec.Model
import ToyVdb.Lib.Arena

/-!
# The vector store

One contiguous arena of floats, and beside it a liveness flag, an external id and a metadata map per
slot, with a hash map from external ids back to slots. Deletes are tombstones, and re-inserting a
deleted external id reuses its slot.

A call that throws keeps whatever it had already changed, so the operations return the state together
with the result, and that a failed call changes nothing is a theorem and not a convention.
-/

namespace ToyVdb

structure VectorStore where
  dim : UInt32
  arena : Vec := []
  live : List Bool := []
  extIds : List Bytes := []
  metas : List Metadata := []
  extToInt : Finmap (fun _ : Bytes => Nat) := ∅
  liveCount : Nat := 0
deriving DecidableEq

namespace VectorStore

/-- The constructor. -/
def new (dim : UInt32) : Except Error VectorStore :=
  if dim = 0 then .error (.invalidArgument "VectorStore: dim must be > 0") else .ok { dim := dim }

variable (s : VectorStore)

/-! ### Reads -/

def slotCount : Nat := s.extIds.length

def size : Nat := s.liveCount

def isLive (id : Nat) : Bool := s.live.getD id false

/-- The vector of a slot. The slot need not be live: HNSW routes through tombstoned slots. -/
def get (id : Nat) : Vec := Arena.row s.arena s.dim.toNat id

def resolve (extId : Bytes) : Option Nat :=
  match s.extToInt.lookup extId with
  | none => none
  | some id => if s.isLive id then some id else none

def metadata (id : Nat) : Option Metadata := s.metas[id]?

def externalId (id : Nat) : Bytes := s.extIds.getD id []

/-! ### Mutations -/

/-- The length is narrowed to 32 bits before it is compared. -/
def validateDim (vec : Vec) : Except Error Unit :=
  if UInt32.ofNat vec.length ≠ s.dim then
    .error (.invalidArgument "VectorStore: vector dimensionality mismatch")
  else .ok ()

/-- Copy a vector into a slot's place in the arena, and set the slot's metadata if there is any. -/
def writeSlot (id : Nat) (vec : Vec) (m? : Option Metadata) : VectorStore :=
  { s with
    arena := Arena.copyTo s.arena (id * s.dim.toNat) vec
    metas := match m? with
      | some m => s.metas.set id m
      | none => s.metas }

def reviveSlot (id : Nat) : VectorStore :=
  { s with live := s.live.set id true, liveCount := s.liveCount + 1 }

def tombstoneSlot (id : Nat) : VectorStore :=
  { s with live := s.live.set id false, liveCount := s.liveCount - 1 }

/-- Append a slot for a brand-new external id; its internal id is the number of slots so far. -/
def appendSlot (extId : Bytes) (vec : Vec) (m : Metadata) : VectorStore :=
  { s with
    arena := s.arena ++ vec
    live := s.live ++ [true]
    extIds := s.extIds ++ [extId]
    metas := s.metas ++ [m]
    extToInt := s.extToInt.insert extId s.slotCount
    liveCount := s.liveCount + 1 }

def doInsert (extId : Bytes) (vec : Vec) (m : Metadata) : Except Error Nat × VectorStore :=
  match s.validateDim vec with
  | .error err => (.error err, s)
  | .ok () =>
    match s.extToInt.lookup extId with
    | some id =>
      -- re-inserting an existing external id revives or overwrites its slot
      let s := s.writeSlot id vec (some m)
      if s.isLive id then (.ok id, s) else (.ok id, s.reviveSlot id)
    | none => (.ok s.slotCount, s.appendSlot extId vec m)

def doUpdate (extId : Bytes) (vec : Vec) (m? : Option Metadata) :
    Except Error (Option Nat) × VectorStore :=
  match s.resolve extId with
  | none => (.ok none, s)
  | some id =>
    match s.validateDim vec with
    | .error err => (.error err, s)
    | .ok () => (.ok (some id), s.writeSlot id vec m?)

def doErase (extId : Bytes) : Except Error (Option Nat) × VectorStore :=
  match s.resolve extId with
  | none => (.ok none, s)
  | some id => (.ok (some id), s.tombstoneSlot id)

/-- The single mutation seam. -/
def apply (op : Op) : Except Error (Option Nat) × VectorStore :=
  match op.type with
  | .insert =>
    match s.doInsert op.extId op.vec (op.metadata.getD ∅) with
    | (.ok id, s) => (.ok (some id), s)
    | (.error err, s) => (.error err, s)
  | .update => s.doUpdate op.extId op.vec op.metadata
  | .delete => s.doErase op.extId

/-- The convenience insert, `apply(op).value()`. -/
def insert (extId : Bytes) (vec : Vec) (m : Metadata) : Except Error Nat × VectorStore :=
  match s.apply ⟨.insert, extId, vec, some m⟩ with
  | (.ok (some id), s) => (.ok id, s)
  | (.ok none, s) => (.error .badOptionalAccess, s)
  | (.error err, s) => (.error err, s)

end VectorStore

end ToyVdb
