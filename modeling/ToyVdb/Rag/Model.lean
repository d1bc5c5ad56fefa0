import ToyVdb.Rag.Text
import ToyVdb.Engine.Model

/-!
# The RAG engine

Documents are chunked, embedded and stored, one entry per chunk, under the document's id and the
chunk's number. How many chunks a document has is kept on the side, so that they can be erased when
the document is ingested again or removed.

The embedding model is an interface: it is a parameter, and may throw. The engine underneath is in
memory, so the order in which metadata is iterated is of no consequence.
-/

namespace ToyVdb

structure Document where
  id : Bytes
  text : Bytes

/-- The adapter of an embedding model. -/
structure EmbeddingModel where
  dim : UInt32
  embed : Bytes → Except Error Vec

structure RagConfig (Score : Type) where
  chunk : ChunkConfig := {}
  metric : Metric Score
  index : IndexKind := .flat
  /-- The levels the index of the engine draws; the other HNSW parameters are the defaults. -/
  levels : Nat → Nat

structure RetrievedChunk (Score : Type) where
  docId : Bytes
  text : Bytes
  score : Score

structure RagEngine where
  engine : Engine
  docChunks : Finmap (fun _ : Bytes => Nat)

/-- A call that changes the engine. -/
inductive RagCall
  | ingest (doc : Document)
  | remove (docId : Bytes)

namespace RagEngine

/-- `std::to_string`. -/
def decimal (n : Nat) : Bytes := (Nat.toDigits 10 n).map fun c => UInt8.ofNat c.toNat

/-- The external id of a chunk. -/
def chunkKey (docId : Bytes) (i : Nat) : Bytes := docId ++ ascii "#" ++ decimal i

def chunkMetadata (docId text : Bytes) : Metadata :=
  ((∅ : Metadata).insert (ascii "doc") (.string docId)).insert (ascii "text") (.string text)

/-- A string in the metadata, empty if there is none. -/
def stringField (m : Metadata) (key : Bytes) : Bytes :=
  match m.lookup key with
  | some (.string s) => s
  | _ => []

section Exec

variable {Score : Type} [LT Score] [DecidableLT Score] (model : EmbeddingModel) (cfg : RagConfig Score)

def engineConfig : EngineConfig Score := ⟨model.dim, cfg.metric, cfg.index, { levels := cfg.levels }⟩

/-- The constructor. -/
def create : Except Error RagEngine := do
  let e ← Engine.create (engineConfig model cfg) none
  pure ⟨e, ∅⟩

/-- Erase the chunks with the given numbers. -/
def eraseChunks (docId : Bytes) : List Nat → Engine → Except Error Unit × Engine
  | [], e => (.ok (), e)
  | i :: rest, e =>
    match e.erase (engineConfig model cfg) .byKey (chunkKey docId i) with
    | (.error err, e) => (.error err, e)
    | (.ok _, e) => eraseChunks docId rest e

/-- Embed and insert the chunks, each with its number. -/
def insertChunks (docId : Bytes) : List (Chunk × Nat) → Engine → Except Error Unit × Engine
  | [], e => (.ok (), e)
  | (chunk, i) :: rest, e =>
    match model.embed chunk.text with
    | .error err => (.error err, e)
    | .ok vec =>
      match e.insert (engineConfig model cfg) .byKey (chunkKey docId i) vec
        (chunkMetadata docId chunk.text) with
      | (.error err, e) => (.error err, e)
      | (.ok _, e) => insertChunks docId rest e

/-- The chunks of a document that are on record. -/
def recordedChunks (r : RagEngine) (docId : Bytes) : List Nat :=
  match r.docChunks.lookup docId with
  | none => []
  | some count => List.range count

/-- Chunks of an earlier ingest go first, so that none of them lingers. -/
def ingest (r : RagEngine) (doc : Document) : Except Error Nat × RagEngine :=
  match eraseChunks model cfg doc.id (r.recordedChunks doc.id) r.engine with
  | (.error err, e) => (.error err, { r with engine := e })
  | (.ok (), e) =>
    let chunks := chunkText doc.text cfg.chunk
    match insertChunks model cfg doc.id chunks.zipIdx e with
    | (.error err, e) => (.error err, { r with engine := e })
    | (.ok (), e) =>
      (.ok chunks.length,
        { engine := e
          docChunks := if chunks.isEmpty then r.docChunks.erase doc.id else r.docChunks.insert doc.id chunks.length })

def remove (r : RagEngine) (docId : Bytes) : Except Error Bool × RagEngine :=
  match r.docChunks.lookup docId with
  | none => (.ok false, r)
  | some count =>
    match eraseChunks model cfg docId (List.range count) r.engine with
    | (.error err, e) => (.error err, { r with engine := e })
    | (.ok (), e) => (.ok true, { engine := e, docChunks := r.docChunks.erase docId })

/-- A hit, mapped back to the document and the text of its slot. -/
def retrieved (r : RagEngine) (hit : SearchResult Score) : RetrievedChunk Score :=
  match r.engine.store.metadata hit.id with
  | none => ⟨[], [], hit.score⟩
  | some m => ⟨stringField m (ascii "doc"), stringField m (ascii "text"), hit.score⟩

def retrieve (r : RagEngine) (query : Bytes) (k : Nat) : Except Error (List (RetrievedChunk Score)) := do
  let qv ← model.embed query
  let hits ← r.engine.search (engineConfig model cfg) qv k none 0
  pure (hits.map r.retrieved)

/-- A call, with its result reduced to whether it threw. -/
def call (r : RagEngine) : RagCall → Except Error Unit × RagEngine
  | .ingest doc => Prod.map (Except.map fun _ => ()) (fun r => r) (r.ingest model cfg doc)
  | .remove docId => Prod.map (Except.map fun _ => ()) (fun r => r) (r.remove model cfg docId)

/-- A sequence of calls; one that throws leaves the engine as it is then. -/
def run (r : RagEngine) (calls : List RagCall) : RagEngine :=
  calls.foldl (fun r next => (r.call model cfg next).2) r

end Exec

def documentCount (r : RagEngine) : Nat := r.docChunks.keys.card

end RagEngine

end ToyVdb
