import ToyVdb.Rag.Loops
import ToyVdb.Engine.Search
import Mathlib.Algebra.BigOperators.Group.Finset.Basic
import Mathlib.Data.Set.Card

/-!
# RAG index consistency

The store holds the chunks of the texts that the documents were last ingested with, and nothing
else. One ingest erases the keys of the chunks on record and inserts those of the new ones; keys of
other documents are none of these.

The scores of the engine are linearly ordered: undefined distances are left out.
-/

namespace ToyVdb

namespace RagEngine

open Engine

variable {Score : Type} {model : EmbeddingModel} {cfg : RagConfig Score} {e : Engine}
  {docId : Bytes} {r : RagEngine}
  {texts : Bytes → Option Bytes}

/-! ### Texts -/

/-- What a call makes of the texts. -/
def updateText (texts : Bytes → Option Bytes) : RagCall → Bytes → Option Bytes
  | .ingest doc => Function.update texts doc.id (some doc.text)
  | .remove docId => Function.update texts docId none

/-- The text each document was last ingested with, if it was not removed since. -/
def currentTexts (calls : List RagCall) : Bytes → Option Bytes := calls.foldl updateText fun _ => none

/-- The chunks of a document's current text. -/
def chunksOf (cfg : RagConfig Score) (texts : Bytes → Option Bytes) (docId : Bytes) : List Chunk :=
  (texts docId).elim [] fun text => chunkText text cfg.chunk

theorem chunksOf_update_self (cfg : RagConfig Score) (texts : Bytes → Option Bytes) (docId : Bytes)
    (text? : Option Bytes) :
    chunksOf cfg (Function.update texts docId text?) docId =
      text?.elim [] fun text => chunkText text cfg.chunk := by
  rw [chunksOf, Function.update_self]

theorem chunksOf_update_of_ne {docId' : Bytes} (hne : docId' ≠ docId) (text? : Option Bytes) :
    chunksOf cfg (Function.update texts docId text?) docId' = chunksOf cfg texts docId' := by
  rw [chunksOf, chunksOf, Function.update_of_ne hne]

/-- An embedding model that never throws and returns vectors of its dimension. -/
def Embeds (model : EmbeddingModel) : Prop :=
  ∀ text, ∃ vec, model.embed text = .ok vec ∧ vec.length = model.dim.toNat

/-- What is stored of a chunk. -/
def Stores (model : EmbeddingModel) (e : Engine) (docId : Bytes) (chunk : Chunk) (i : Nat) : Prop :=
  ∃ vec, model.embed chunk.text = .ok vec ∧
    e.store.content (chunkKey docId i) = some ⟨vec, chunkMetadata docId chunk.text⟩

/-- The store holds the chunks of the current texts and nothing else, and the record of how many
there are is right. -/
structure Consistent (model : EmbeddingModel) (cfg : RagConfig Score) (r : RagEngine)
    (texts : Bytes → Option Bytes) : Prop
    extends Ready (engineConfig model cfg) r.engine where
  counts : ∀ docId, r.docChunks.lookup docId =
    if chunksOf cfg texts docId = [] then none else some (chunksOf cfg texts docId).length
  stores : ∀ docId i chunk, (chunksOf cfg texts docId)[i]? = some chunk → Stores model r.engine docId chunk i
  only : ∀ x, r.engine.store.content x ≠ none → ∃ docId i, x = chunkKey docId i ∧
    i < (chunksOf cfg texts docId).length

theorem Consistent.recordedChunks_eq (h : Consistent model cfg r texts) (docId : Bytes) :
    r.recordedChunks docId = List.range (chunksOf cfg texts docId).length := by
  rw [recordedChunks, h.counts]
  by_cases hnil : chunksOf cfg texts docId = []
  · rw [if_pos hnil, hnil]
    rfl
  · rw [if_neg hnil]

theorem Consistent.lt_of_content (h : Consistent model cfg r texts) {i : Nat}
    (hi : r.engine.store.content (chunkKey docId i) ≠ none) : i < (chunksOf cfg texts docId).length := by
  obtain ⟨docId', i', heq, hlt⟩ := h.only _ hi
  obtain ⟨rfl, rfl⟩ := chunkKey_inj heq
  exact hlt

/-- One document changes and the others stay as they are. -/
theorem Consistent.change (h : Consistent model cfg r texts) {r' : RagEngine}
    (hready : Ready (engineConfig model cfg) r'.engine)
    (hcontent : ∀ x, (∀ i, x ≠ chunkKey docId i) → r'.engine.store.content x = r.engine.store.content x)
    (hlookup : ∀ docId' ≠ docId, r'.docChunks.lookup docId' = r.docChunks.lookup docId')
    {text? : Option Bytes} {chunks : List Chunk}
    (hchunks : chunks = text?.elim [] fun text => chunkText text cfg.chunk)
    (hcount : r'.docChunks.lookup docId = if chunks = [] then none else some chunks.length)
    (hstores : ∀ i chunk, chunks[i]? = some chunk → Stores model r'.engine docId chunk i)
    (honly : ∀ i, r'.engine.store.content (chunkKey docId i) ≠ none → i < chunks.length) :
    Consistent model cfg r' (Function.update texts docId text?) := by
  have hself : chunksOf cfg (Function.update texts docId text?) docId = chunks := by
    rw [hchunks, chunksOf_update_self]
  refine ⟨hready, fun docId' => ?_, fun docId' i chunk hchunk => ?_, fun x hx => ?_⟩
  · by_cases hdoc : docId' = docId
    · rw [hdoc, hself, hcount]
    · rw [chunksOf_update_of_ne hdoc, hlookup docId' hdoc, h.counts]
  · by_cases hdoc : docId' = docId
    · rw [hdoc, hself] at hchunk
      rw [hdoc]
      exact hstores i chunk hchunk
    · rw [chunksOf_update_of_ne hdoc] at hchunk
      obtain ⟨vec, hvec, hentry⟩ := h.stores docId' i chunk hchunk
      refine ⟨vec, hvec, ?_⟩
      rw [hcontent _ fun i' heq => hdoc (chunkKey_inj heq).1, hentry]
  · by_cases hkey : ∃ i, x = chunkKey docId i
    · obtain ⟨i, rfl⟩ := hkey
      exact ⟨docId, i, rfl, hself ▸ honly i hx⟩
    · rw [hcontent x fun i heq => hkey ⟨i, heq⟩] at hx
      obtain ⟨docId', i, rfl, hi⟩ := h.only x hx
      have hdoc : docId' ≠ docId := fun heq => hkey ⟨i, heq ▸ rfl⟩
      exact ⟨docId', i, rfl, by rwa [chunksOf_update_of_ne hdoc]⟩

/-! ### What follows -/

theorem Consistent.content_iff (h : Consistent model cfg r texts) (x : Bytes) (entry : Entry) :
    r.engine.store.content x = some entry ↔ ∃ docId i chunk, x = chunkKey docId i ∧
      (chunksOf cfg texts docId)[i]? = some chunk ∧ model.embed chunk.text = .ok entry.vec ∧
      entry.metadata = chunkMetadata docId chunk.text := by
  constructor
  · intro hentry
    obtain ⟨docId, i, rfl, hi⟩ := h.only x (by rw [hentry]; exact Option.some_ne_none entry)
    have hchunk := List.getElem?_eq_getElem hi
    obtain ⟨vec, hvec, hstored⟩ := h.stores docId i _ hchunk
    cases hentry.symm.trans hstored
    exact ⟨docId, i, _, rfl, hchunk, hvec, rfl⟩
  · rintro ⟨docId, i, chunk, rfl, hchunk, hvec, hmeta⟩
    obtain ⟨vec, hvec', hstored⟩ := h.stores docId i chunk hchunk
    cases hvec.symm.trans hvec'
    rw [hstored, ← hmeta]

theorem Consistent.lookup_iff (h : Consistent model cfg r texts) (docId : Bytes) (count : Nat) :
    r.docChunks.lookup docId = some count ↔ count = (chunksOf cfg texts docId).length ∧ count ≠ 0 := by
  rw [h.counts]
  by_cases hnil : chunksOf cfg texts docId = []
  · rw [if_pos hnil, hnil]
    constructor
    · intro heq
      cases heq
    · rintro ⟨rfl, hne⟩
      exact absurd rfl hne
  · rw [if_neg hnil, Option.some.injEq]
    constructor
    · rintro rfl
      exact ⟨rfl, fun hzero => hnil (List.length_eq_zero_iff.mp hzero)⟩
    · rintro ⟨rfl, -⟩
      rfl

theorem Consistent.mem_keys_iff (h : Consistent model cfg r texts) (docId : Bytes) :
    docId ∈ r.docChunks.keys ↔ chunksOf cfg texts docId ≠ [] := by
  rw [Finmap.mem_keys, ← Finmap.lookup_isSome, h.counts]
  by_cases hnil : chunksOf cfg texts docId = []
  · simp [hnil]
  · simp [hnil]

theorem Consistent.size_eq (h : Consistent model cfg r texts) :
    r.engine.store.size = ∑ docId ∈ r.docChunks.keys, (r.docChunks.lookup docId).getD 0 := by
  have hids := h.wf.ids
  have hlive : ((liveSlots r.engine.store).map r.engine.store.externalId).toFinset =
      r.docChunks.keys.biUnion fun docId => (Finset.range (chunksOf cfg texts docId).length).image
      (chunkKey docId) := by
    ext x
    rw [List.mem_toFinset, mem_liveIds_iff hids, Finset.mem_biUnion]
    constructor
    · intro hsome
      obtain ⟨docId, i, rfl, hi⟩ := h.only x (Option.isSome_iff_ne_none.mp hsome)
      refine ⟨docId, (h.mem_keys_iff docId).mpr fun hnil => ?_,
        Finset.mem_image_of_mem _ (Finset.mem_range.mpr hi)⟩
      rw [hnil] at hi
      exact absurd hi (Nat.not_lt_zero i)
    · rintro ⟨docId, -, hx⟩
      obtain ⟨i, hi, rfl⟩ := Finset.mem_image.mp hx
      obtain ⟨vec, -, hstored⟩ := h.stores docId i _ (List.getElem?_eq_getElem (Finset.mem_range.mp hi))
      rw [hstored]
      rfl
  have hdisjoint : ((r.docChunks.keys : Finset Bytes) : Set Bytes).PairwiseDisjoint fun docId =>
      (Finset.range (chunksOf cfg texts docId).length).image (chunkKey docId) := by
    intro docId _ docId' _ hne
    rw [Function.onFun, Finset.disjoint_left]
    intro x hx hx'
    obtain ⟨i, -, rfl⟩ := Finset.mem_image.mp hx
    obtain ⟨i', -, heq⟩ := Finset.mem_image.mp hx'
    exact hne (chunkKey_inj heq.symm).1
  rw [Engine.size_eq hids, ← List.length_map (f := r.engine.store.externalId),
    ← List.toFinset_card_of_nodup (nodup_liveIds hids),
    hlive, Finset.card_biUnion hdisjoint]
  apply Finset.sum_congr rfl
  intro docId hdoc
  rw [Finset.card_image_of_injective _ fun i i' heq => (chunkKey_inj heq).2, Finset.card_range, h.counts,
    if_neg ((h.mem_keys_iff docId).mp hdoc)]
  rfl

theorem Consistent.documentCount_eq (h : Consistent model cfg r texts) :
    r.documentCount = Set.ncard {docId | ∃ text, texts docId = some text ∧ ¬ Blank text} := by
  have hkeys : {docId | ∃ text, texts docId = some text ∧ ¬ Blank text} = (r.docChunks.keys : Set Bytes) := by
    ext docId
    rw [Finset.mem_coe, h.mem_keys_iff, chunksOf, Set.mem_ofPred_eq]
    cases texts docId with
    | none => simp
    | some text => simp [chunkText_eq_nil_iff]
  rw [hkeys, Set.ncard_coe_finset]
  rfl

variable [LinearOrder Score]

/-! ### Calls -/

theorem insertChunks_spec (hembed : Embeds model) (h : Ready (engineConfig model cfg) e) (docId : Bytes)
    (items : List (Chunk × Nat)) (hnodup : (items.map Prod.snd).Nodup) :
    ∃ e', insertChunks model cfg docId items e = (.ok (), e') ∧ Ready (engineConfig model cfg) e' ∧
      (∀ item ∈ items, Stores model e' docId item.1 item.2) ∧
      ∀ x, x ∉ items.map (fun item => chunkKey docId item.2) → e'.store.content x = e.store.content x := by
  have hreceived : ∀ item ∈ items, ∃ vec, received model.dim (model.embed item.1.text) = .ok vec := by
    intro item _
    obtain ⟨vec, hvec⟩ := hembed item.1.text
    exact ⟨vec, received_eq_ok_iff.mpr hvec⟩
  obtain ⟨e', hinsert, hready, hstores, hothers⟩ := insertAnswered_append
    (fun chunk _ => model.embed chunk.text) h docId items [] hnodup hreceived
  refine ⟨e', ?_, hready, fun item hitem => ?_, hothers⟩
  · rw [insertChunks_eq, ← List.append_nil items]
    exact hinsert
  · obtain ⟨vec, hvec, hcontent⟩ := hstores item hitem
    exact ⟨vec, (received_eq_ok_iff.mp hvec).1, hcontent⟩

theorem Consistent.erase (h : Consistent model cfg r texts) (docId : Bytes) :
    ∃ e, eraseChunks model cfg docId (List.range (chunksOf cfg texts docId).length) r.engine = (.ok (), e) ∧
      Consistent model cfg ⟨e, r.docChunks.erase docId⟩ (Function.update texts docId none) := by
  obtain ⟨e, herase, hready, hcontent⟩ :=
    eraseChunks_spec h.toReady docId (List.range (chunksOf cfg texts docId).length)
  refine ⟨e, herase, h.change hready (fun x hx => ?_) (fun docId' hdoc => Finmap.lookup_erase_ne hdoc) rfl
    (Finmap.lookup_erase docId r.docChunks) (fun i chunk hchunk => ?_) fun i hi => ?_⟩
  · exact (hcontent x).trans (if_neg (notMem_chunkKeys hx _))
  · cases hchunk
  · -- what was there has been erased
    change e.store.content (chunkKey docId i) ≠ none at hi
    rw [hcontent] at hi
    by_cases hmem : chunkKey docId i ∈ (List.range (chunksOf cfg texts docId).length).map (chunkKey docId)
    · rw [if_pos hmem] at hi
      exact absurd rfl hi
    · rw [if_neg hmem] at hi
      exact absurd (mem_chunkKeys.mpr (h.lt_of_content hi)) hmem

theorem Consistent.insert (h : Consistent model cfg r texts) (hembed : Embeds model)
    (hnone : texts docId = none) (text : Bytes) :
    ∃ e, insertChunks model cfg docId (chunkText text cfg.chunk).zipIdx r.engine = (.ok (), e) ∧
      Consistent model cfg
        ⟨e, if (chunkText text cfg.chunk).isEmpty then r.docChunks else r.docChunks.insert docId
          (chunkText text cfg.chunk).length⟩
        (Function.update texts docId (some text)) := by
  have hempty : chunksOf cfg texts docId = [] := by
    rw [chunksOf, hnone]
    rfl
  generalize hchunks : chunkText text cfg.chunk = chunks
  have hnumbers : chunks.zipIdx.map Prod.snd = List.range chunks.length := by
    rw [List.zipIdx_map_snd, List.range_eq_range']
  have hkeys : chunks.zipIdx.map (fun item => chunkKey docId item.2) =
      (List.range chunks.length).map (chunkKey docId) := by
    rw [← hnumbers, List.map_map]
    rfl
  have hnodup : (chunks.zipIdx.map Prod.snd).Nodup := by
    rw [hnumbers]
    exact List.nodup_range
  obtain ⟨e, hinsert, hready, hstores, hothers⟩ := insertChunks_spec hembed h.toReady docId _ hnodup
  rw [hkeys] at hothers
  refine ⟨e, hinsert, h.change hready (fun x hx => hothers x (notMem_chunkKeys hx _))
    (fun docId' hdoc => ?_) hchunks.symm ?_
    (fun i chunk hchunk => ?_) fun i hi => ?_⟩
  · dsimp only
    split_ifs
    · rfl
    · exact Finmap.lookup_insert_of_ne r.docChunks hdoc
  · dsimp only
    cases chunks with
    | nil =>
        have hcount := h.counts docId
        rwa [hempty] at hcount
    | cons chunk chunks => exact Finmap.lookup_insert r.docChunks
  · exact hstores (chunk, i) (List.mk_mem_zipIdx_iff_getElem?.mpr hchunk)
  · by_contra hge
    change e.store.content (chunkKey docId i) ≠ none at hi
    rw [hothers _ fun hmem => hge (mem_chunkKeys.mp hmem)] at hi
    have hlt := h.lt_of_content hi
    rw [hempty] at hlt
    exact absurd hlt (Nat.not_lt_zero i)

/-- An ingest returns, and leaves the document's new text current. -/
theorem Consistent.ingest (h : Consistent model cfg r texts) (hembed : Embeds model) (doc : Document) :
    (r.ingest model cfg doc).1 = .ok (chunkText doc.text cfg.chunk).length ∧
      Consistent model cfg (r.ingest model cfg doc).2 (Function.update texts doc.id (some doc.text)) := by
  obtain ⟨e₁, herase, h₁⟩ := h.erase doc.id
  obtain ⟨e₂, hinsert, h₂⟩ := h₁.insert hembed (Function.update_self ..) doc.text
  have hcounts : (if (chunkText doc.text cfg.chunk).isEmpty then r.docChunks.erase doc.id
      else (r.docChunks.erase doc.id).insert doc.id (chunkText doc.text cfg.chunk).length) =
      if (chunkText doc.text cfg.chunk).isEmpty then r.docChunks.erase doc.id
      else r.docChunks.insert doc.id (chunkText doc.text cfg.chunk).length := by
    congr 1
    apply Finmap.ext_lookup
    intro docId
    by_cases hdoc : docId = doc.id
    · rw [hdoc, Finmap.lookup_insert, Finmap.lookup_insert]
    · rw [Finmap.lookup_insert_of_ne _ hdoc, Finmap.lookup_insert_of_ne _ hdoc, Finmap.lookup_erase_ne hdoc]
  rw [Function.update_idem, hcounts] at h₂
  rw [RagEngine.ingest, h.recordedChunks_eq, herase]
  dsimp only
  rw [hinsert]
  exact ⟨rfl, h₂⟩

theorem Consistent.remove (h : Consistent model cfg r texts) (docId : Bytes) :
    (r.remove model cfg docId).1 = .ok (!(chunksOf cfg texts docId).isEmpty) ∧
      Consistent model cfg (r.remove model cfg docId).2 (Function.update texts docId none) := by
  obtain ⟨e, herase, h'⟩ := h.erase docId
  rw [RagEngine.remove, h.counts]
  by_cases hnil : chunksOf cfg texts docId = []
  · -- nothing was erased, and there was no record to erase
    rw [if_pos hnil]
    rw [hnil] at herase
    cases herase
    have hcount := h.counts docId
    rw [if_pos hnil] at hcount
    have hsame : r.docChunks.erase docId = r.docChunks := by
      apply Finmap.ext_lookup
      intro docId'
      by_cases hdoc : docId' = docId
      · rw [hdoc, Finmap.lookup_erase, hcount]
      · rw [Finmap.lookup_erase_ne hdoc]
    rw [hsame] at h'
    refine ⟨?_, h'⟩
    rw [hnil]
    rfl
  · rw [if_neg hnil]
    dsimp only
    rw [herase]
    refine ⟨?_, h'⟩
    cases hchunks : chunksOf cfg texts docId with
    | nil => exact absurd hchunks hnil
    | cons => rfl

theorem Consistent.call (h : Consistent model cfg r texts) (hembed : Embeds model) (next : RagCall) :
    Consistent model cfg (r.call model cfg next).2 (updateText texts next) := by
  cases next with
  | ingest doc => exact (h.ingest hembed doc).2
  | remove docId => exact (h.remove docId).2

theorem Consistent.run (h : Consistent model cfg r texts) (hembed : Embeds model) (calls : List RagCall) :
    Consistent model cfg (r.run model cfg calls) (calls.foldl updateText texts) := by
  induction calls generalizing r texts with
  | nil => exact h
  | cons next calls ih => exact ih (h.call hembed next)

theorem consistent_create (hcreate : create model cfg = .ok r) : Consistent model cfg r fun _ => none := by
  obtain ⟨e, hengine, hreturned⟩ := Outcome.exists_of_bind_eq_ok hcreate
  cases hreturned
  obtain ⟨hdim, rfl⟩ := create_blank rfl hengine
  refine ⟨⟨wf_of_create hengine, VectorStore.wf_empty _⟩, fun docId => ?_,
    fun docId i chunk hchunk => ?_, fun x hx => ?_⟩
  · exact Finmap.lookup_empty docId
  · cases hchunk
  · exact absurd (VectorStore.content_empty _ x) hx

/-! ### Retrieval -/

theorem stringField_chunkMetadata (docId text : Bytes) :
    stringField (chunkMetadata docId text) (ascii "doc") = docId ∧
      stringField (chunkMetadata docId text) (ascii "text") = text := by
  have hne : ascii "doc" ≠ ascii "text" := by decide
  constructor
  · rw [stringField, chunkMetadata, Finmap.lookup_insert_of_ne _ hne, Finmap.lookup_insert]
  · rw [stringField, chunkMetadata, Finmap.lookup_insert]

theorem Consistent.retrieve (h : Consistent model cfg r texts) (hembed : Embeds model)
    (query : Bytes) (k : Nat) :
    ∃ found, r.retrieve model cfg query k = .ok found ∧
      ∀ c ∈ found, ∃ (i : Nat) (chunk : Chunk), (chunksOf cfg texts c.docId)[i]? = some chunk ∧
        c.text = chunk.text := by
  obtain ⟨qv, hqv, hlen⟩ := hembed query
  obtain ⟨hits, hsearch, hsound⟩ := h.wf.search_sound hlen k none 0
  have hfound : r.retrieve model cfg query k = .ok (hits.map r.retrieved) := by
    rw [RagEngine.retrieve, hqv]
    show (r.engine.search (engineConfig model cfg) qv k none 0 >>= _) = _
    rw [hsearch]
    rfl
  refine ⟨_, hfound, fun c hc => ?_⟩
  obtain ⟨hit, hhit, rfl⟩ := List.mem_map.mp hc
  have hlive : r.engine.store.isLive hit.id = true := (Bool.and_eq_true_iff.mp (hsound.admitted hit hhit)).1
  have hmeta := metadata_eq h.wf.ids (h.wf.ids.lt_of_isLive hlive)
  obtain ⟨docId, i, chunk, -, hchunk, -, hstored⟩ := (h.content_iff _ _).mp
    (VectorStore.content_of_resolve (resolve_externalId h.wf.ids hlive))
  obtain ⟨hdoc, htext⟩ := stringField_chunkMetadata docId chunk.text
  have hretrieved : r.retrieved hit = ⟨docId, chunk.text, hit.score⟩ := by
    rw [retrieved, hmeta, show (r.engine.store.metadata hit.id).getD ∅ =
      chunkMetadata docId chunk.text from hstored]
    simp only [hdoc, htext]
  rw [hretrieved]
  exact ⟨i, chunk, hchunk, rfl⟩

/-- **RAG index consistency.** For every configuration and every embedding model that never throws
and returns vectors of its dimension, after any sequence of ingests and removals of documents with
any ids: the live entries are those of the chunks of the current texts, each under its document's id
and its number, with its embedding, and with document and text as metadata. The record of the
numbers of chunks is right, their sum is the size of the store, and as many documents are on record
as were last ingested with a text that is not blank and not removed since. No two chunks share a
key. Calls return, and what is retrieved are a document and a text of it that are current. -/
theorem rag_index_consistent (model : EmbeddingModel) (hembed : Embeds model)
    (cfg : RagConfig Score) (r₀ : RagEngine)
    (hcreate : create model cfg = .ok r₀) (calls : List RagCall) :
    (∀ x entry, (r₀.run model cfg calls).engine.store.content x = some entry ↔ ∃ docId i chunk,
      x = chunkKey docId i ∧
      (chunksOf cfg (currentTexts calls) docId)[i]? = some chunk ∧ model.embed chunk.text = .ok entry.vec ∧
      entry.metadata = chunkMetadata docId chunk.text) ∧
    (∀ docId count, (r₀.run model cfg calls).docChunks.lookup docId = some count ↔
      count = (chunksOf cfg (currentTexts calls) docId).length ∧ count ≠ 0) ∧
    (r₀.run model cfg calls).engine.store.size =
      ∑ docId ∈ (r₀.run model cfg calls).docChunks.keys,
        ((r₀.run model cfg calls).docChunks.lookup docId).getD 0 ∧
    (r₀.run model cfg calls).documentCount =
      Set.ncard {docId | ∃ text, currentTexts calls docId = some text ∧ ¬ Blank text} ∧
    (∀ docId docId' i i', chunkKey docId i = chunkKey docId' i' → docId = docId' ∧ i = i') ∧
    (∀ doc, ((r₀.run model cfg calls).ingest model cfg doc).1 = .ok (chunkText doc.text cfg.chunk).length) ∧
    (∀ docId, ((r₀.run model cfg calls).remove model cfg docId).1 =
      .ok (!(chunksOf cfg (currentTexts calls) docId).isEmpty)) ∧
    ∀ query k, ∃ found, (r₀.run model cfg calls).retrieve model cfg query k = .ok found ∧
      ∀ c ∈ found, ∃ (i : Nat) (chunk : Chunk),
        (chunksOf cfg (currentTexts calls) c.docId)[i]? = some chunk ∧ c.text = chunk.text := by
  have h : Consistent model cfg (r₀.run model cfg calls) (currentTexts calls) :=
    (consistent_create hcreate).run hembed calls
  exact ⟨h.content_iff, h.lookup_iff, h.size_eq, h.documentCount_eq, fun _ _ _ _ => chunkKey_inj,
    fun doc => (h.ingest hembed doc).1,
    fun docId => (h.remove docId).1, h.retrieve hembed⟩

/-- A model that finds everything alike. -/
def sampleModel : EmbeddingModel := ⟨1, fun _ => .ok [0]⟩

/-- Windows of two tokens, the second of which is the first of the next. -/
def sampleRag : RagConfig Int := ⟨⟨2, 1⟩, l2, .flat, fun _ => 0⟩

/-- Two chunks of a document are replaced by one of a shorter text, next to a document whose id
looks like a chunk's. -/
theorem rag_index_consistent_sample :
    ∃ r₀, create sampleModel sampleRag = .ok r₀ ∧
      (r₀.run sampleModel sampleRag [.ingest ⟨ascii "d", ascii "a b c"⟩, .ingest ⟨ascii "d#0", ascii "x"⟩,
        .ingest ⟨ascii "d", ascii "a b"⟩]).documentCount =
        Set.ncard {docId | ∃ text, currentTexts
          [.ingest ⟨ascii "d", ascii "a b c"⟩, .ingest ⟨ascii "d#0", ascii "x"⟩,
          .ingest ⟨ascii "d", ascii "a b"⟩] docId = some text ∧ ¬ Blank text} ∧
      (r₀.run sampleModel sampleRag [.ingest ⟨ascii "d", ascii "a b c"⟩, .ingest ⟨ascii "d#0", ascii "x"⟩,
        .ingest ⟨ascii "d", ascii "a b"⟩]).engine.store.size = 2 := by
  obtain ⟨-, -, -, hcount, -⟩ := rag_index_consistent sampleModel (fun _ => ⟨[0], rfl, rfl⟩) sampleRag _ rfl
    [.ingest ⟨ascii "d", ascii "a b c"⟩, .ingest ⟨ascii "d#0", ascii "x"⟩, .ingest ⟨ascii "d", ascii "a b"⟩]
  exact ⟨_, rfl, hcount, by decide +kernel⟩

end RagEngine

end ToyVdb
