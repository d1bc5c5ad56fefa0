import ToyVdb.Engine.Embedding
import ToyVdb.Rag.Model

/-!
# Only the order of scores matters to retrieval

As an engine depends on its metric through the order of the scores alone, so does the RAG engine over it: with scores
in the same order, the same calls on embeddings that the metric suits leave the same state.
-/

namespace ToyVdb

open Outcome Engine

namespace RagEngine

section Embeds

variable {S S' : Type} [LT S] [DecidableLT S] [LT S'] [DecidableLT S'] {φ : S → S'} {P : UInt32 → Prop}
  {cfg : EngineConfig S} {cfg' : EngineConfig S'} {e : Engine}

theorem erase_eq_of_embeds (h : cfg.Embeds cfg' φ P) (he : e.store.AllIn P) (order : IterOrder) (x : Bytes) :
    e.erase cfg order x = e.erase cfg' order x ∧ (e.erase cfg order x).2.store.AllIn P := by
  have hnil : ∀ y ∈ ([] : Vec), P y := List.forall_mem_nil _
  refine ⟨?_, (exec_write_eq h he order (w := .erase x) hnil).2⟩
  rw [Engine.erase, Engine.erase, applyOp, applyOp, mutate_eq h (e := e.logOp order _) he hnil]

theorem insert_eq_of_embeds (h : cfg.Embeds cfg' φ P) (he : e.store.AllIn P) (order : IterOrder) (x : Bytes) {v : Vec}
    (hv : ∀ y ∈ v, P y) (m : Metadata) :
    e.insert cfg order x v m = e.insert cfg' order x v m ∧ (e.insert cfg order x v m).2.store.AllIn P := by
  refine ⟨?_, (exec_write_eq h he order (w := .insert x v m) hv).2⟩
  rw [Engine.insert, Engine.insert, applyOp, applyOp, mutate_eq h (e := e.logOp order _) he hv]

end Embeds

section Embeds

variable {S S' : Type} [LT S] [DecidableLT S] [LT S'] [DecidableLT S'] {φ : S → S'} {P : UInt32 → Prop}
  {model : EmbeddingModel} {cfg : RagConfig S} {cfg' : RagConfig S'} {e : Engine} {r : RagEngine}

/-- The embeddings are made of components the metric suits. -/
def EmbedsIn (P : UInt32 → Prop) (model : EmbeddingModel) : Prop :=
  ∀ text vec, model.embed text = .ok vec → ∀ x ∈ vec, P x

/-- The same configuration, but for metrics in the same order. -/
structure SameOrder (cfg : RagConfig S) (cfg' : RagConfig S') (φ : S → S') (P : UInt32 → Prop) : Prop where
  chunk_eq : cfg.chunk = cfg'.chunk
  index_eq : cfg.index = cfg'.index
  levels_eq : cfg.levels = cfg'.levels
  metric : cfg.metric.Embeds cfg'.metric φ P

omit [DecidableLT S] [DecidableLT S'] in
theorem SameOrder.engine (h : SameOrder cfg cfg' φ P) (model : EmbeddingModel) :
    (engineConfig model cfg).Embeds (engineConfig model cfg') φ P where
  dim_eq := rfl
  index_eq := h.index_eq
  hnsw_eq := by simp only [engineConfig, h.levels_eq]
  metric := h.metric

theorem eraseChunks_eq (h : SameOrder cfg cfg' φ P) (model : EmbeddingModel) (docId : Bytes) (numbers : List Nat)
    (he : e.store.AllIn P) :
    eraseChunks model cfg docId numbers e = eraseChunks model cfg' docId numbers e ∧
      (eraseChunks model cfg docId numbers e).2.store.AllIn P := by
  induction numbers generalizing e with
  | nil => exact ⟨rfl, he⟩
  | cons i rest ih =>
      obtain ⟨heq, he'⟩ := erase_eq_of_embeds (h.engine model) he .byKey (chunkKey docId i)
      rw [eraseChunks, eraseChunks, ← heq]
      cases hcall : e.erase (engineConfig model cfg) .byKey (chunkKey docId i) with
      | mk result e' =>
      rw [hcall] at he'
      cases result with
      | error err => exact ⟨rfl, he'⟩
      | ok b => exact ih he'

theorem insertChunks_eq_of_embeds (h : SameOrder cfg cfg' φ P) (hmodel : EmbedsIn P model) (docId : Bytes)
    (items : List (Chunk × Nat)) (he : e.store.AllIn P) :
    insertChunks model cfg docId items e = insertChunks model cfg' docId items e ∧
      (insertChunks model cfg docId items e).2.store.AllIn P := by
  induction items generalizing e with
  | nil => exact ⟨rfl, he⟩
  | cons item rest ih =>
      obtain ⟨chunk, i⟩ := item
      rw [insertChunks, insertChunks]
      cases hembed : model.embed chunk.text with
      | error err => exact ⟨rfl, he⟩
      | ok vec =>
          obtain ⟨heq, he'⟩ := insert_eq_of_embeds (h.engine model) he .byKey (chunkKey docId i)
            (hmodel _ _ hembed) (chunkMetadata docId chunk.text)
          simp only [← heq]
          cases hcall : e.insert (engineConfig model cfg) .byKey (chunkKey docId i) vec
              (chunkMetadata docId chunk.text) with
          | mk result e' =>
          rw [hcall] at he'
          cases result with
          | error err => exact ⟨rfl, he'⟩
          | ok b => exact ih he'

theorem ingest_eq_of_embeds (h : SameOrder cfg cfg' φ P) (hmodel : EmbedsIn P model) (doc : Document)
    (hr : r.engine.store.AllIn P) :
    r.ingest model cfg doc = r.ingest model cfg' doc ∧ (r.ingest model cfg doc).2.engine.store.AllIn P := by
  obtain ⟨heq, he⟩ := eraseChunks_eq h model doc.id (r.recordedChunks doc.id) hr
  rw [ingest, ingest, ← heq, ← h.chunk_eq]
  cases hcall : eraseChunks model cfg doc.id (r.recordedChunks doc.id) r.engine with
  | mk result e =>
  rw [hcall] at he
  cases result with
  | error err => exact ⟨rfl, he⟩
  | ok u =>
      obtain ⟨heq', he'⟩ := insertChunks_eq_of_embeds h hmodel doc.id (chunkText doc.text cfg.chunk).zipIdx he
      simp only [← heq']
      cases hinsert : insertChunks model cfg doc.id (chunkText doc.text cfg.chunk).zipIdx e with
      | mk result' e' =>
      rw [hinsert] at he'
      cases result' with
      | error err => exact ⟨trivial, he'⟩
      | ok u => exact ⟨trivial, he'⟩

theorem remove_eq_of_embeds (h : SameOrder cfg cfg' φ P) (model : EmbeddingModel) (docId : Bytes)
    (hr : r.engine.store.AllIn P) :
    r.remove model cfg docId = r.remove model cfg' docId ∧
      (r.remove model cfg docId).2.engine.store.AllIn P := by
  rw [remove, remove]
  cases hcount : r.docChunks.lookup docId with
  | none => exact ⟨rfl, hr⟩
  | some count =>
      obtain ⟨heq, he⟩ := eraseChunks_eq h model docId (List.range count) hr
      simp only [← heq]
      cases hcall : eraseChunks model cfg docId (List.range count) r.engine with
      | mk result e =>
      rw [hcall] at he
      cases result with
      | error err => exact ⟨trivial, he⟩
      | ok u => exact ⟨trivial, he⟩

theorem call_eq_of_embeds (h : SameOrder cfg cfg' φ P) (hmodel : EmbedsIn P model) (next : RagCall)
    (hr : r.engine.store.AllIn P) :
    r.call model cfg next = r.call model cfg' next ∧ (r.call model cfg next).2.engine.store.AllIn P := by
  cases next with
  | ingest doc =>
      obtain ⟨heq, he⟩ := ingest_eq_of_embeds h hmodel doc hr
      exact ⟨by rw [call, call, heq], he⟩
  | remove docId =>
      obtain ⟨heq, he⟩ := remove_eq_of_embeds h model docId hr
      exact ⟨by rw [call, call, heq], he⟩

theorem run_eq_of_embeds (h : SameOrder cfg cfg' φ P) (hmodel : EmbedsIn P model) (calls : List RagCall)
    (hr : r.engine.store.AllIn P) :
    r.run model cfg calls = r.run model cfg' calls ∧ (r.run model cfg calls).engine.store.AllIn P := by
  induction calls generalizing r with
  | nil => exact ⟨rfl, hr⟩
  | cons next calls ih =>
      obtain ⟨heq, hr'⟩ := call_eq_of_embeds h hmodel next hr
      obtain ⟨hrest, hr''⟩ := ih hr'
      refine ⟨?_, hr''⟩
      rw [run, run, List.foldl_cons, List.foldl_cons, ← heq]
      exact hrest

theorem create_eq_of_embeds (h : SameOrder cfg cfg' φ P) (model : EmbeddingModel) :
    create model cfg = create model cfg' ∧ ∀ r, create model cfg = .ok r → r.engine.store.AllIn P := by
  obtain ⟨heq, hstore⟩ := create_eq (h.engine model) none fun _ hnone => nomatch hnone
  refine ⟨by rw [create, create, heq], fun r hcreate => ?_⟩
  obtain ⟨e, hengine, hreturned⟩ := exists_of_bind_eq_ok hcreate
  cases hreturned
  exact hstore e hengine

end Embeds

end RagEngine

end ToyVdb
