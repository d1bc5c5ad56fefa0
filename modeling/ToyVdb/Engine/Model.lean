import ToyVdb.Codec.Model
import ToyVdb.Store.Model
import ToyVdb.Hnsw.Model
import ToyVdb.Disk.Model

/-!
# The engine

The facade that owns the store and the index, and the log and the snapshots when it is durable. Every
mutation goes through `applyOp`, which logs, applies and indexes, in that order; recovery replays the
snapshot and then the log through the same function without logging.

A call that encodes metadata is given the order in which the hash maps are iterated while it runs. A call
returns the engine it leaves behind also when it throws.
-/

namespace ToyVdb

inductive IndexKind
  | flat
  | hnsw
deriving DecidableEq

/-- The configuration, less the persistence directory: a durable engine is one that was opened on a disk. -/
structure EngineConfig (Score : Type) where
  dim : UInt32
  metric : Metric Score
  index : IndexKind := .flat
  hnsw : HnswParams

/-! ### Either index -/

inductive Index
  | flat (index : FlatIndex)
  | hnsw (index : HnswIndex)
deriving DecidableEq

namespace Index

variable {Score : Type} [LT Score] [DecidableLT Score] (cfg : EngineConfig Score)

def new : Index :=
  match cfg.index with
  | .flat => .flat {}
  | .hnsw => .hnsw {}

def add (s : VectorStore) (id : Nat) : Index → Except Error Index
  | .flat index => .ok (.flat (index.add id))
  | .hnsw index => (index.add cfg.metric s cfg.hnsw id).map .hnsw

/-- HNSW leaves a deleted node where it is. -/
def remove (id : Nat) : Index → Index
  | .flat index => .flat (index.remove id)
  | .hnsw index => .hnsw index

def search (s : VectorStore) (query : Vec) (k : Nat) (params : SearchParams) :
    Index → Except Error (List (SearchResult Score))
  | .flat index => index.search cfg.metric s query k params
  | .hnsw index => index.search cfg.metric s query k params

end Index

structure Engine where
  store : VectorStore
  index : Index
  disk : Option Disk := none
deriving DecidableEq

namespace Engine

def kSnapshotKey : Bytes := ascii "snapshot"

variable {Score : Type} [LT Score] [DecidableLT Score] (cfg : EngineConfig Score)

/-! ### Mutations -/

/-- Write ahead: the intent is on disk before the store is touched. -/
def logOp (e : Engine) (order : IterOrder) (op : Op) : Engine :=
  { e with disk := e.disk.map fun disk => { disk with wal := FileLogStore.append disk.wal (encodeOp order op) } }

/-- Apply an op to the store and keep the index up to date. -/
def mutate (e : Engine) (op : Op) : Except Error Nat × Engine :=
  match op.type with
  | .insert =>
    -- only a genuinely new id is indexed; an existing one keeps its slot
    let isNew := (e.store.resolve op.extId).isNone
    match e.store.apply op with
    | (.error err, s) => (.error err, { e with store := s })
    | (.ok none, s) => (.error .badOptionalAccess, { e with store := s })
    | (.ok (some id), s) =>
      if isNew then
        match e.index.add cfg s id with
        | .error err => (.error err, { e with store := s })
        | .ok index => (.ok id, { e with store := s, index := index })
      else (.ok id, { e with store := s })
  | .update =>
    match e.store.apply op with
    | (.error err, s) => (.error err, { e with store := s })
    | (.ok _, s) => (.ok kInvalidId, { e with store := s })
  | .delete =>
    match e.store.apply op with
    | (.error err, s) => (.error err, { e with store := s })
    | (.ok none, s) => (.ok kInvalidId, { e with store := s })
    | (.ok (some id), s) => (.ok kInvalidId, { e with store := s, index := e.index.remove id })

/-- `apply_op`; it logs when it is given an iteration order to encode with. -/
def applyOp (e : Engine) (op : Op) (log : Option IterOrder) : Except Error Nat × Engine :=
  match log with
  | some order => (e.logOp order op).mutate cfg op
  | none => e.mutate cfg op

def insert (e : Engine) (order : IterOrder) (extId : Bytes) (vec : Vec) (m : Metadata) :
    Except Error Nat × Engine :=
  e.applyOp cfg ⟨.insert, extId, vec, some m⟩ (some order)

/-- An absent id is not even logged. -/
def update (e : Engine) (order : IterOrder) (extId : Bytes) (vec : Vec) (m? : Option Metadata) :
    Except Error Bool × Engine :=
  if (e.store.resolve extId).isNone then (.ok false, e)
  else
    match e.applyOp cfg ⟨.update, extId, vec, m?⟩ (some order) with
    | (.ok _, e) => (.ok true, e)
    | (.error err, e) => (.error err, e)

def erase (e : Engine) (order : IterOrder) (extId : Bytes) : Except Error Bool × Engine :=
  if (e.store.resolve extId).isNone then (.ok false, e)
  else
    match e.applyOp cfg ⟨.delete, extId, [], none⟩ (some order) with
    | (.ok _, e) => (.ok true, e)
    | (.error err, e) => (.error err, e)

/-! ### Search -/

/-- Set a slot's bit if it is live and its metadata matches. -/
def allowSlot (s : VectorStore) (filter : Filter) (allowed : Bitset) (id : Nat) : Bitset :=
  if !s.isLive id then allowed
  else match s.metadata id with
    | some m => if filter.matchesMeta m then allowed.set id else allowed
    | none => allowed

def allowedSet (s : VectorStore) (filter : Filter) : Bitset :=
  (List.range s.slotCount).foldl (allowSlot s filter) (Bitset.ofSize s.slotCount)

def search (e : Engine) (query : Vec) (k : Nat) (filter : Option Filter) (ef : Nat) :
    Except Error (List (SearchResult Score)) :=
  if query.length ≠ e.store.dim.toNat then
    .error (.invalidArgument "Engine::search: query dimensionality mismatch")
  else if k = 0 then .ok []
  else
    let params : SearchParams := if ef > 0 then { ef := ef } else {}
    match filter with
    | none => e.index.search cfg e.store query k params
    | some filter =>
      e.index.search cfg e.store query k { params with allowed := some (allowedSet e.store filter) }

/-! ### Snapshots and compaction -/

/-- Nothing but a barrier: what was appended is in the file already. -/
def flush (e : Engine) : Engine := e

/-- The live slots, in slot order. -/
def liveSlots (s : VectorStore) : List Nat := (List.range s.slotCount).filter s.isLive

/-- A live entry as the op that inserts it. -/
def snapshotOp (s : VectorStore) (id : Nat) : Op := ⟨.insert, s.externalId id, s.get id, s.metadata id⟩

def snapshotData (s : VectorStore) (order : IterOrder) : Bytes :=
  (liveSlots s).flatMap fun id => snapshotFrame (encodeOp order (snapshotOp s id))

/-- The first half of a snapshot: the blob is published. -/
def putSnapshot (e : Engine) (order : IterOrder) : Engine :=
  { e with disk := e.disk.map fun disk =>
    { disk with blobs := FileBlobStore.put disk.blobs kSnapshotKey (snapshotData e.store order) } }

/-- The second half: the log starts afresh. -/
def truncateWal (e : Engine) : Engine := { e with disk := e.disk.map fun disk => { disk with wal := [] } }

def snapshot (e : Engine) (order : IterOrder) : Engine := (e.putSnapshot order).truncateWal

structure LiveEntry where
  extId : Bytes
  vec : Vec
  metadata : Metadata

def liveEntries (s : VectorStore) : List LiveEntry :=
  (liveSlots s).map fun id => ⟨s.externalId id, s.get id, (s.metadata id).getD ∅⟩

/-- Re-insert the live entries, store and index together. -/
def reinsert : List LiveEntry → Engine → Except Error Unit × Engine
  | [], e => (.ok (), e)
  | entry :: entries, e =>
    match e.store.insert entry.extId entry.vec entry.metadata with
    | (.error err, s) => (.error err, { e with store := s })
    | (.ok id, s) =>
      match e.index.add cfg s id with
      | .error err => (.error err, { e with store := s })
      | .ok index => reinsert entries { e with store := s, index := index }

/-- Compaction up to the snapshot it ends with: a fresh store and index with the live entries only. -/
def rebuild (e : Engine) : Except Error Unit × Engine :=
  match VectorStore.new cfg.dim with
  | .error err => (.error err, e)
  | .ok s => reinsert cfg (liveEntries e.store) { e with store := s, index := Index.new cfg }

def compact (e : Engine) (order : IterOrder) : Except Error Unit × Engine :=
  match e.rebuild cfg with
  | (.error err, e) => (.error err, e)
  | (.ok (), e) => (.ok (), e.snapshot order)

/-! ### Recovery -/

def replayOp (e : Engine) (op : Op) : Except Error Engine :=
  match e.applyOp cfg op none with
  | (.ok _, e) => .ok e
  | (.error err, _) => .error err

def replayRecord (e : Engine) (record : Bytes) : Except Error Engine := do
  let op ← decodeOp record
  e.replayOp cfg op

def replayBlob (e : Engine) (data : Bytes) : Except Error Engine :=
  (snapshotRecords data).foldlM (replayRecord cfg) e

/-- The snapshot is the base, the log is on top of it. -/
def recover (e : Engine) (disk : Disk) : Except Error Engine := do
  let e ← if disk.blobs.contains kSnapshotKey then do
      let data ← disk.blobs.get kSnapshotKey
      e.replayBlob cfg data
    else pure e
  (FileLogStore.replay disk.wal).foldlM (replayRecord cfg) e

/-- The constructor, on a persistence directory if there is one. -/
def create (disk : Option Disk) : Except Error Engine := do
  let s ← VectorStore.new cfg.dim
  let e : Engine := ⟨s, Index.new cfg, disk⟩
  match disk with
  | none => pure e
  | some disk => e.recover cfg disk

end Engine

end ToyVdb
