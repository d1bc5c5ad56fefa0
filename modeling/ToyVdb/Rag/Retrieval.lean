import ToyVdb.Rag.UnitLength
import ToyVdb.Rag.Embedding
import ToyVdb.Rag.Consistency
import ToyVdb.Rag.Prompt
import ToyVdb.Engine.SinglePrecision
import ToyVdb.Engine.Content

/-!
# Retrieval in single precision

What is retrieved depends on the metric only through the order of its scores, so with the source's metrics in single
precision it is what it is over a linear order: the chunks of the current texts whose embeddings have the least
scores, closest first and each once. So it depends on the current texts alone, not on how they came to be current.
With the mock model a chunk is found by its own words, and a prompt quotes the first of what is retrieved.
-/

namespace ToyVdb

open Ieee Outcome Engine

namespace RagEngine

/-! ### What is retrieved -/

/-- The chunk of a current text with a number, as it is retrieved. -/
def scored (model : EmbeddingModel) (cfg : RagConfig Float32) (texts : Bytes → Option Bytes) (query : Vec)
    (place : Bytes × Nat) : Option (RetrievedChunk Float32) := do
  let chunk ← (chunksOf cfg texts place.1)[place.2]?
  let vec ← (model.embed chunk.text).toOption
  pure ⟨place.1, chunk.text, cfg.metric.distance query vec⟩

theorem scored_eq_some_iff {model : EmbeddingModel} {cfg : RagConfig Float32} {texts : Bytes → Option Bytes}
    {query : Vec} {docId : Bytes} {i : Nat} {c : RetrievedChunk Float32} :
    scored model cfg texts query (docId, i) = some c ↔ ∃ chunk vec, (chunksOf cfg texts docId)[i]? = some chunk ∧
      model.embed chunk.text = .ok vec ∧ c = ⟨docId, chunk.text, cfg.metric.distance query vec⟩ := by
  rw [scored]
  cases hchunk : (chunksOf cfg texts docId)[i]? with
  | none => simp
  | some chunk =>
      cases hvec : model.embed chunk.text with
      | error err => simp [hvec, Except.toOption]
      | ok vec => simp [hvec, Except.toOption, eq_comm]

/-- Chunks of the current texts at different places, with their scores, closest first. -/
structure RetrievesCurrent (model : EmbeddingModel) (cfg : RagConfig Float32) (texts : Bytes → Option Bytes)
    (query : Vec) (places : List (Bytes × Nat)) (found : List (RetrievedChunk Float32)) : Prop where
  nodup : places.Nodup
  scored_eq : places.map (scored model cfg texts query) = found.map some
  number : ∀ c ∈ found, c.score.isNaN = false
  ascending : found.Pairwise fun a b => toReal a.score ≤ toReal b.score

/-- As many as there is room for, and nothing left out has a lesser score. -/
structure RetrievesNearest (model : EmbeddingModel) (cfg : RagConfig Float32) (texts : Bytes → Option Bytes)
    (query : Vec) (room : Nat) (places : List (Bytes × Nat)) (found : List (RetrievedChunk Float32)) : Prop
    extends RetrievesCurrent model cfg texts query places found where
  length_eq : found.length = room
  nearest : ∀ place ∉ places, ∀ other, scored model cfg texts query place = some other →
    ∀ c ∈ found, toReal c.score ≤ toReal other.score

theorem RetrievesNearest.close {model : EmbeddingModel} {cfg : RagConfig Float32} {texts : Bytes → Option Bytes}
    {query : Vec} {room : Nat} {places : List (Bytes × Nat)} {found : List (RetrievedChunk Float32)}
    (h : RetrievesNearest model cfg texts query room places found) {place : Bytes × Nat}
    {other : RetrievedChunk Float32} (hother : scored model cfg texts query place = some other) :
    other ∈ found ∨ ∀ c ∈ found, toReal c.score ≤ toReal other.score := by
  by_cases hmem : place ∈ places
  · refine .inl ?_
    have hsome : some other ∈ found.map some := by
      rw [← h.scored_eq, ← hother]
      exact List.mem_map_of_mem hmem
    obtain ⟨c, hc, heq⟩ := List.mem_map.mp hsome
    cases heq
    exact hc
  · exact .inr (h.nearest place hmem other hother)

section Hits

variable {Score : Type} {model : EmbeddingModel} {cfg : RagConfig Score} {r : RagEngine}
  {texts : Bytes → Option Bytes}

@[simp]
theorem retrieved_score {S : Type} (r : RagEngine) (hit : SearchResult S) : (r.retrieved hit).score = hit.score := by
  rw [retrieved]
  cases r.engine.store.metadata hit.id <;> rfl

theorem Consistent.slot (h : Consistent model cfg r texts) {id : Nat} (hlive : r.engine.store.isLive id = true) :
    ∃ (docId : Bytes) (i : Nat) (chunk : Chunk), r.engine.store.externalId id = chunkKey docId i ∧
      (chunksOf cfg texts docId)[i]? = some chunk ∧ model.embed chunk.text = .ok (r.engine.store.get id) ∧
      ∀ (S : Type) (score : S), r.retrieved ⟨id, score⟩ = ⟨docId, chunk.text, score⟩ := by
  have hmeta := metadata_eq h.wf.ids (h.wf.ids.lt_of_isLive hlive)
  obtain ⟨docId, i, chunk, hkey, hchunk, hvec, hstored⟩ := (h.content_iff _ _).mp
    (VectorStore.content_of_resolve (resolve_externalId h.wf.ids hlive))
  obtain ⟨hdoc, htext⟩ := stringField_chunkMetadata docId chunk.text
  refine ⟨docId, i, chunk, hkey, hchunk, hvec, fun S score => ?_⟩
  rw [retrieved, hmeta, show (r.engine.store.metadata id).getD ∅ = chunkMetadata docId chunk.text from hstored]
  simp only [hdoc, htext]

theorem Consistent.slot_of_chunk (h : Consistent model cfg r texts) {docId : Bytes} {i : Nat} {chunk : Chunk}
    (hchunk : (chunksOf cfg texts docId)[i]? = some chunk) {vec : Vec} (hvec : model.embed chunk.text = .ok vec) :
    ∃ id, r.engine.store.isLive id = true ∧ r.engine.store.externalId id = chunkKey docId i ∧
      r.engine.store.get id = vec := by
  have hcontent := (h.content_iff (chunkKey docId i) ⟨vec, chunkMetadata docId chunk.text⟩).mpr
    ⟨docId, i, chunk, rfl, hchunk, hvec, rfl⟩
  rw [VectorStore.content, Option.map_eq_some_iff] at hcontent
  obtain ⟨id, hresolve, hentry⟩ := hcontent
  injection hentry with hget
  exact ⟨id, (VectorStore.resolve_eq_some_iff.mp hresolve).2, externalId_of_resolve h.wf.ids hresolve, hget⟩

theorem length_candidates (h : Consistent model cfg r texts) :
    (candidates r.engine.store (eligible r.engine.store none)).length = r.engine.store.size := by
  rw [size_eq h.wf.ids, candidates, liveSlots]
  congr 1
  apply List.filter_congr
  intro id _
  exact Bool.and_true _

end Hits

section Floats

variable {model : EmbeddingModel} {kind : MetricKind} {cfg : RagConfig Float32} {r r₀ : RagEngine}
  {texts : Bytes → Option Bytes}

/-- The configuration, with scores in a linear order. -/
noncomputable def orderedConfig (kind : MetricKind) (cfg : RagConfig Float32) : RagConfig (Number kind.missingZero) :=
  ⟨cfg.chunk, kind.ordered, cfg.index, cfg.levels⟩

theorem sameOrder_ordered (hmetric : cfg.metric = kind.metric) :
    SameOrder (orderedConfig kind cfg) cfg Number.float kind.Suits where
  chunk_eq := rfl
  index_eq := rfl
  levels_eq := rfl
  metric := by
    rw [hmetric]
    exact kind.ordered_embeds

/-- The same state over a linear order, where it is consistent. -/
theorem consistent_ordered (hmetric : cfg.metric = kind.metric) (hembed : Embeds model)
    (hmodel : EmbedsIn kind.Suits model) (hcreate : create model cfg = .ok r₀) (calls : List RagCall) :
    Consistent model (orderedConfig kind cfg) (r₀.run model cfg calls) (currentTexts calls) ∧
      (r₀.run model cfg calls).engine.store.AllIn kind.Suits := by
  obtain ⟨hopen, hstore⟩ := create_eq_of_embeds (sameOrder_ordered hmetric) model
  rw [hcreate] at hopen
  obtain ⟨hrun, hstore'⟩ := run_eq_of_embeds (sameOrder_ordered hmetric) hmodel calls (hstore r₀ hopen)
  rw [← hrun]
  exact ⟨(consistent_create hopen).run hembed calls, hstore'⟩

theorem dim_ne_zero (hmetric : cfg.metric = kind.metric) (hcreate : create model cfg = .ok r₀) : model.dim ≠ 0 := by
  obtain ⟨hopen, -⟩ := create_eq_of_embeds (sameOrder_ordered hmetric) model
  rw [hcreate] at hopen
  obtain ⟨e, hengine, -⟩ := exists_of_bind_eq_ok hopen
  exact (create_blank rfl hengine).1

theorem Consistent.exists_place (h : Consistent model (orderedConfig kind cfg) r texts) (query : Vec) (id : Nat) :
    ∃ place : Bytes × Nat, r.engine.store.isLive id = true →
      r.engine.store.externalId id = chunkKey place.1 place.2 ∧ scored model cfg texts query place =
        some (r.retrieved ⟨id, cfg.metric.distance query (r.engine.store.get id)⟩) := by
  by_cases hlive : r.engine.store.isLive id = true
  · obtain ⟨docId, i, chunk, hkey, hchunk, hvec, hshown⟩ := h.slot hlive
    exact ⟨(docId, i), fun _ => ⟨hkey, scored_eq_some_iff.mpr ⟨chunk, _, hchunk, hvec, hshown _ _⟩⟩⟩
  · exact ⟨default, fun hlive' => absurd hlive' hlive⟩

theorem Consistent.retrieves_current (hmetric : cfg.metric = kind.metric)
    (h : Consistent model (orderedConfig kind cfg) r texts) (hstore : r.engine.store.AllIn kind.Suits)
    {query : Bytes} {qv : Vec} (hqv : model.embed query = .ok qv) (hsuits : ∀ x ∈ qv, kind.Suits x) {k : Nat}
    {hits : List (SearchResult (Number kind.missingZero))}
    (hsearch : r.engine.search (engineConfig model (orderedConfig kind cfg)) qv k none 0 = .ok hits)
    (hsound : Sound kind.ordered r.engine.store qv (eligible r.engine.store none) hits) :
    r.retrieve model cfg query k = .ok ((hits.map (SearchResult.map Number.float)).map r.retrieved) ∧
      ∃ place : Nat → Bytes × Nat,
        (∀ id, r.engine.store.isLive id = true →
          r.engine.store.externalId id = chunkKey (place id).1 (place id).2) ∧
        RetrievesCurrent model cfg texts qv
          (((hits.map (SearchResult.map Number.float)).map SearchResult.id).map place)
          ((hits.map (SearchResult.map Number.float)).map r.retrieved) := by
  have hsearch' : r.engine.search (engineConfig model cfg) qv k none 0 =
      .ok (hits.map (SearchResult.map Number.float)) := by
    rw [← search_map ((sameOrder_ordered hmetric).engine model) hstore hsuits, hsearch]
    rfl
  have hnumbers := hsound.numbers hstore hsuits
  generalize hits.map (SearchResult.map Number.float) = hits' at hsearch' hnumbers
  have hlive : ∀ id ∈ hits'.map SearchResult.id, r.engine.store.isLive id = true := by
    intro id hid
    obtain ⟨hit, hhit, rfl⟩ := List.mem_map.mp hid
    exact (Bool.and_eq_true_iff.mp (hnumbers.admitted hit hhit)).1
  choose place hplace using h.exists_place qv
  refine ⟨?_, place, fun id hid => (hplace id hid).1, ?_, ?_, ?_, ?_⟩
  · rw [RagEngine.retrieve, hqv]
    change (r.engine.search (engineConfig model cfg) qv k none 0 >>= _) = _
    rw [hsearch']
    rfl
  · -- slots of one place have one key
    refine List.Nodup.map_on (fun id hid id' hid' heq => ?_) hnumbers.nodup
    have hkey := (hplace id (hlive id hid)).1.trans
      (heq ▸ (hplace id' (hlive id' hid')).1.symm)
    have hresolve := resolve_externalId h.wf.ids (hlive id hid)
    rw [hkey, resolve_externalId h.wf.ids (hlive id' hid')] at hresolve
    exact (Option.some_inj.mp hresolve).symm
  · rw [List.map_map, List.map_map, List.map_map]
    refine List.map_congr_left fun hit hhit => ?_
    have hshown := (hplace hit.id (hlive hit.id (List.mem_map_of_mem hhit))).2
    rwa [hmetric, ← hnumbers.score_eq hit hhit] at hshown
  · intro c hc
    obtain ⟨hit, hhit, rfl⟩ := List.mem_map.mp hc
    rw [retrieved_score]
    exact hnumbers.number hit hhit
  · rw [List.pairwise_map]
    simpa only [retrieved_score] using hnumbers.ascending

theorem Consistent.retrieves_nearest (hmetric : cfg.metric = kind.metric) (hflat : cfg.index = .flat)
    (h : Consistent model (orderedConfig kind cfg) r texts) (hstore : r.engine.store.AllIn kind.Suits)
    {query : Bytes} {qv : Vec} (hqv : model.embed query = .ok qv) (hlen : qv.length = model.dim.toNat)
    (hsuits : ∀ x ∈ qv, kind.Suits x) (k : Nat) :
    ∃ found places, r.retrieve model cfg query k = .ok found ∧
      RetrievesNearest model cfg texts qv (min k r.engine.store.size) places found ∧
      found.map RetrievedChunk.score =
        (exactScores kind.ordered r.engine.store qv (eligible r.engine.store none) k).map Number.float := by
  obtain ⟨hits, hsearch, hexact, hscores⟩ := h.wf.search_flat hflat hlen k none 0
  obtain ⟨hretrieve, place, hkeys, hcurrent⟩ :=
    h.retrieves_current hmetric hstore hqv hsuits hsearch hexact.toSound
  have hnumbers := hexact.numbers hstore hsuits
  refine ⟨_, _, hretrieve, ⟨hcurrent, ?_, ?_⟩, ?_⟩
  · rw [List.length_map, hnumbers.length_eq, length_candidates h]
  · rintro ⟨docId, i⟩ hplaces other hother c hc
    obtain ⟨hit, hhit, rfl⟩ := List.mem_map.mp hc
    obtain ⟨chunk, vec, hchunk, hvec, rfl⟩ := scored_eq_some_iff.mp hother
    obtain ⟨id, hslot, hkey, hget⟩ := h.slot_of_chunk hchunk hvec
    have hmem : id ∉ (hits.map (SearchResult.map Number.float)).map SearchResult.id := by
      intro hid
      obtain ⟨hdoc, hi⟩ := chunkKey_inj ((hkeys id hslot).symm.trans hkey)
      exact hplaces (List.mem_map.mpr ⟨id, hid, Prod.ext hdoc hi⟩)
    have hle := hnumbers.nearest id (Bool.and_eq_true_iff.mpr ⟨hslot, rfl⟩) hmem hit hhit
    rw [hget, ← hmetric] at hle
    rwa [retrieved_score]
  · refine Eq.trans ?_ (congrArg (List.map Number.float) hscores)
    rw [List.map_map, List.map_map, List.map_map]
    exact List.map_congr_left fun hit _ => retrieved_score r _

end Floats

/-! ### The mock model -/

section Mock

open MockEmbeddingModel Cosine

variable {dim : UInt32}

theorem suits_of_moderate {v : Vec} (hv : Moderate v) (kind : MetricKind) : ∀ x ∈ v, kind.Suits x := by
  intro x hx
  cases kind with
  | l2 => exact (hv x hx).1
  | cosine => exact hv x hx
  | dot => exact hv x hx

theorem mock_embeds (hdim : dim ≠ 0) : Embeds (MockEmbeddingModel.model dim) := fun text =>
  let ⟨vec, hembed, hlength, _⟩ := embed_moderate hdim text
  ⟨vec, hembed, hlength⟩

theorem mock_embedsIn (hdim : dim ≠ 0) (kind : MetricKind) : EmbedsIn kind.Suits (MockEmbeddingModel.model dim) := by
  intro text vec hvec
  obtain ⟨_, hembed, -, hmoderate⟩ := embed_moderate hdim text
  cases hembed.symm.trans hvec
  exact suits_of_moderate hmoderate kind

/-! ### Retrieval -/

/-- **Retrieval is sound in single precision, and exact over a flat index.** With one of the source's metrics, after
any ingests and removals, a query returns at most as many chunks as asked for, different chunks of the current texts
with the scores of the source, none of them NaN and closest first. A flat index returns as many as asked for, or all,
and no current chunk that is not returned has a lesser score. The model returns vectors of the dimension, with
components the metric suits. -/
theorem retrieval_is_sound_in_floats (model : EmbeddingModel) (hembed : Embeds model) (kind : MetricKind)
    (hmodel : EmbedsIn kind.Suits model) (cfg : RagConfig Float32) (hmetric : cfg.metric = kind.metric)
    (r₀ : RagEngine) (hcreate : create model cfg = .ok r₀) (calls : List RagCall) (query : Bytes) (k : Nat) :
    ∃ qv found places, model.embed query = .ok qv ∧
      (r₀.run model cfg calls).retrieve model cfg query k = .ok found ∧
      RetrievesCurrent model cfg (currentTexts calls) qv places found ∧ found.length ≤ k ∧
      (cfg.index = .flat →
        RetrievesNearest model cfg (currentTexts calls) qv
          (min k (r₀.run model cfg calls).engine.store.size) places found) := by
  obtain ⟨h, hstore⟩ := consistent_ordered hmetric hembed hmodel hcreate calls
  obtain ⟨qv, hqv, hlen⟩ := hembed query
  have hsuits := hmodel query qv hqv
  cases hkind : cfg.index with
  | flat =>
      obtain ⟨found, places, hretrieve, hnearest, -⟩ :=
        h.retrieves_nearest hmetric hkind hstore hqv hlen hsuits k
      refine ⟨qv, found, places, hqv, hretrieve, hnearest.toRetrievesCurrent, ?_, fun _ => hnearest⟩
      rw [hnearest.length_eq]
      exact Nat.min_le_left _ _
  | hnsw =>
      obtain ⟨hits, hsearch, hsound, hlength, -⟩ := h.wf.search_hnsw hkind hlen k none 0
      obtain ⟨hretrieve, place, -, hcurrent⟩ := h.retrieves_current hmetric hstore hqv hsuits hsearch hsound
      refine ⟨qv, _, _, hqv, hretrieve, hcurrent, ?_, fun hflat => nomatch hflat⟩
      rwa [List.length_map, List.length_map]

/-- Windows of four tokens. -/
def mockRag : RagConfig Float32 := ⟨⟨4, 0⟩, MetricKind.cosine.metric, .flat, fun _ => 0⟩

def mockCalls : List RagCall :=
  [.ingest ⟨ascii "d", ascii "the quick brown fox"⟩, .ingest ⟨ascii "e", ascii "a lazy dog"⟩,
    .ingest ⟨ascii "d", ascii "the slow fox"⟩, .remove (ascii "e")]

/-- What there is before any ingest. -/
def mockEngine : RagEngine := ⟨⟨{ dim := 8 }, .flat {}, none⟩, ∅⟩

theorem create_mockEngine : create (MockEmbeddingModel.model 8) mockRag = .ok mockEngine := rfl

/-- After a document is replaced and another one is removed, one chunk is left. -/
theorem retrieve_mockCalls : ((mockEngine.run (MockEmbeddingModel.model 8) mockRag mockCalls).retrieve
    (MockEmbeddingModel.model 8) mockRag (ascii "a quick fox") 3).map
      (List.map fun c => (c.docId, c.text)) = .ok [(ascii "d", ascii "the slow fox")] := by
  decide +kernel

theorem retrieval_is_sound_in_floats_sample :
    ∃ found, (mockEngine.run (MockEmbeddingModel.model 8) mockRag mockCalls).retrieve (MockEmbeddingModel.model 8)
        mockRag (ascii "a quick fox") 3 = .ok found ∧
      found.map (fun c => (c.docId, c.text)) = [(ascii "d", ascii "the slow fox")] ∧
      ∀ c ∈ found, c.score.isNaN = false := by
  obtain ⟨_, found, _, -, hretrieve, hcurrent, -⟩ := retrieval_is_sound_in_floats (MockEmbeddingModel.model 8)
    (mock_embeds (by decide)) .cosine (mock_embedsIn (by decide) .cosine) mockRag rfl mockEngine create_mockEngine
    mockCalls (ascii "a quick fox") 3
  have htexts := retrieve_mockCalls
  rw [hretrieve] at htexts
  exact ⟨found, hretrieve, Except.ok.inj htexts, hcurrent.number⟩

/-- **A chunk is found by its own words.** With the mock model, cosine distances and a flat index, a query of the
words of a current chunk, in any order, has a first result that is at most `2^-21` away, and the chunk is among the
results unless all of them are as close. The words must count: not all components of their embedding cancel. -/
theorem own_words_come_first (dim : UInt32) (cfg : RagConfig Float32) (hmetric : cfg.metric = MetricKind.cosine.metric)
    (hflat : cfg.index = .flat) (r₀ : RagEngine) (hcreate : create (MockEmbeddingModel.model dim) cfg = .ok r₀)
    (calls : List RagCall) (docId : Bytes) (chunk : Chunk) (hchunk : chunk ∈ chunksOf cfg (currentTexts calls) docId)
    (query : Bytes) (hwords : (words query).Perm (words chunk.text)) (hlen : (words query).length ≤ 2 ^ 24)
    (hcount : ∃ i < dim.toNat, countAt dim query i ≠ 0) (k : Nat) (hk : 0 < k) :
    ∃ first rest,
      (r₀.run (MockEmbeddingModel.model dim) cfg calls).retrieve (MockEmbeddingModel.model dim) cfg query k =
        .ok (first :: rest) ∧ toReal first.score ≤ 1 / 2 ^ 21 ∧
      ((∃ c ∈ first :: rest, c.docId = docId ∧ c.text = chunk.text) ∨
        ∀ c ∈ first :: rest, toReal c.score ≤ 1 / 2 ^ 21) := by
  have hdim : dim ≠ 0 := dim_ne_zero hmetric hcreate
  obtain ⟨h, hstore⟩ := consistent_ordered hmetric (mock_embeds hdim) (mock_embedsIn hdim .cosine) hcreate calls
  obtain ⟨qv, hqv, hlength, hmoderate⟩ := embed_moderate hdim query
  obtain ⟨_, hqv', hlarge⟩ := embed_large hdim hcount
  cases hqv.symm.trans hqv'
  have hvec : (MockEmbeddingModel.model dim).embed chunk.text = .ok qv :=
    (embed_eq_of_counts hdim (counts_congr hwords hlen)).symm.trans hqv
  obtain ⟨found, places, hretrieve, hnearest, -⟩ :=
    h.retrieves_nearest hmetric hflat hstore hqv hlength (suits_of_moderate hmoderate .cosine) k
  have hself : toReal (cfg.metric.distance qv qv) ≤ 1 / 2 ^ 21 := by
    rw [hmetric]
    exact distance_self_le hmoderate hlarge
  obtain ⟨i, hi⟩ := List.mem_iff_getElem?.mp hchunk
  have hsize : 0 < (r₀.run (MockEmbeddingModel.model dim) cfg calls).engine.store.size := by
    obtain ⟨id, hlive, -⟩ := h.slot_of_chunk hi hvec
    rw [size_eq h.wf.ids]
    exact List.length_pos_of_mem ((mem_liveSlots h.wf.ids).mpr hlive)
  have hclose := hnearest.close (scored_eq_some_iff.mpr ⟨chunk, qv, hi, hvec, rfl⟩)
  cases found with
  | nil =>
      have hlength := hnearest.length_eq
      rw [List.length_nil] at hlength
      omega
  | cons first rest =>
      refine ⟨first, rest, hretrieve, ?_, hclose.imp (fun hc => ⟨_, hc, rfl, rfl⟩) fun hall c hc =>
        (hall c hc).trans hself⟩
      obtain hc | hall := hclose
      · -- the chunk itself is among the results, and the first is no further away
        obtain rfl | hc := List.mem_cons.mp hc
        · exact hself
        · exact ((List.pairwise_cons.mp hnearest.ascending).1 _ hc).trans hself
      · exact (hall first List.mem_cons_self).trans hself

theorem own_words_come_first_sample : ∃ first rest,
    (mockEngine.run (MockEmbeddingModel.model 8) mockRag mockCalls).retrieve (MockEmbeddingModel.model 8) mockRag
      (ascii "Fox the SLOW") 3 = .ok (first :: rest) ∧ toReal first.score ≤ 1 / 2 ^ 21 := by
  obtain ⟨first, rest, hretrieve, hclose, -⟩ := own_words_come_first 8 mockRag rfl rfl mockEngine create_mockEngine
    mockCalls (ascii "d") ⟨ascii "the slow fox", 0, 3⟩ (by decide +kernel) (ascii "Fox the SLOW") (by decide +kernel)
    (by decide +kernel) (by decide +kernel) 3 (by decide)
  exact ⟨first, rest, hretrieve, hclose⟩

end Mock

/-! ### Histories -/

theorem Consistent.content_congr {Score : Type} {model : EmbeddingModel} {cfg : RagConfig Score} {r r' : RagEngine}
    {texts : Bytes → Option Bytes} (h : Consistent model cfg r texts) (h' : Consistent model cfg r' texts) :
    r.engine.store.content = r'.engine.store.content :=
  funext fun x => Option.ext fun entry => (h.content_iff x entry).trans (h'.content_iff x entry).symm

/-- No two current chunks are as close as each other. -/
def NoTies (model : EmbeddingModel) (cfg : RagConfig Float32) (texts : Bytes → Option Bytes) (query : Vec) : Prop :=
  ∀ place place' c c', scored model cfg texts query place = some c → scored model cfg texts query place' = some c' →
    c.score = c'.score → place = place'

theorem RetrievesCurrent.exists_place {model : EmbeddingModel} {cfg : RagConfig Float32}
    {texts : Bytes → Option Bytes} {query : Vec} {places : List (Bytes × Nat)} {found : List (RetrievedChunk Float32)}
    (h : RetrievesCurrent model cfg texts query places found) {c : RetrievedChunk Float32} (hc : c ∈ found) :
    ∃ place, scored model cfg texts query place = some c := by
  have hsome : some c ∈ places.map (scored model cfg texts query) := by
    rw [h.scored_eq]
    exact List.mem_map_of_mem hc
  obtain ⟨place, -, heq⟩ := List.mem_map.mp hsome
  exact ⟨place, heq⟩

/-- **Retrieval forgets history.** With a flat index and one of the source's metrics in single precision, what is
retrieved depends on the current texts only, not on how they came to be current, what was removed or replaced, or in
what order documents came: the scores are the same to the bit, and the chunks are the same in the same order where no
two current chunks are as close as each other. The model returns vectors of the dimension, with components the metric
suits. -/
theorem retrieval_forgets_history (model : EmbeddingModel) (hembed : Embeds model) (kind : MetricKind)
    (hmodel : EmbedsIn kind.Suits model) (cfg : RagConfig Float32) (hmetric : cfg.metric = kind.metric)
    (hflat : cfg.index = .flat) (r₀ : RagEngine) (hcreate : create model cfg = .ok r₀) (calls calls' : List RagCall)
    (htexts : currentTexts calls = currentTexts calls') (query : Bytes) (k : Nat) :
    ∃ qv found found', model.embed query = .ok qv ∧
      (r₀.run model cfg calls).retrieve model cfg query k = .ok found ∧
      (r₀.run model cfg calls').retrieve model cfg query k = .ok found' ∧
      found.map RetrievedChunk.score = found'.map RetrievedChunk.score ∧
      (NoTies model cfg (currentTexts calls) qv → found = found') := by
  obtain ⟨h, hstore⟩ := consistent_ordered hmetric hembed hmodel hcreate calls
  obtain ⟨h', hstore'⟩ := consistent_ordered hmetric hembed hmodel hcreate calls'
  obtain ⟨qv, hqv, hlen⟩ := hembed query
  have hsuits := hmodel query qv hqv
  obtain ⟨found, places, hretrieve, hnearest, hscores⟩ :=
    h.retrieves_nearest hmetric hflat hstore hqv hlen hsuits k
  obtain ⟨found', places', hretrieve', hnearest', hscores'⟩ :=
    h'.retrieves_nearest hmetric hflat hstore' hqv hlen hsuits k
  rw [← htexts] at h' hnearest'
  have hsame : found.map RetrievedChunk.score = found'.map RetrievedChunk.score := by
    rw [hscores, hscores', exactScores_eq_of_content h.wf.ids h'.wf.ids (h.content_congr h')]
  refine ⟨qv, found, found', hqv, hretrieve, hretrieve', hsame, fun hties => ?_⟩
  rw [← List.map_id found, ← List.map_id found']
  refine map_eq_of_map_eq hsame fun c hc c' hc' hscore => ?_
  -- chunks of one score are at one place
  obtain ⟨place, hplace⟩ := hnearest.exists_place hc
  obtain ⟨place', hplace'⟩ := hnearest'.exists_place hc'
  obtain rfl := hties place place' c c' hplace hplace' hscore
  exact Option.some_inj.mp (hplace.symm.trans hplace')

theorem retrieval_forgets_history_sample : ∃ found found',
    (mockEngine.run (MockEmbeddingModel.model 8) mockRag mockCalls).retrieve (MockEmbeddingModel.model 8) mockRag
      (ascii "a quick fox") 3 = .ok found ∧
    (mockEngine.run (MockEmbeddingModel.model 8) mockRag [.ingest ⟨ascii "d", ascii "the slow fox"⟩]).retrieve
      (MockEmbeddingModel.model 8) mockRag (ascii "a quick fox") 3 = .ok found' ∧
    found.map (fun c => (c.docId, c.text)) = [(ascii "d", ascii "the slow fox")] ∧
    found.map RetrievedChunk.score = found'.map RetrievedChunk.score := by
  have htexts : currentTexts mockCalls = currentTexts [.ingest ⟨ascii "d", ascii "the slow fox"⟩] := by
    have hne : ascii "d" ≠ ascii "e" := by decide
    funext docId
    simp only [currentTexts, mockCalls, List.foldl_cons, List.foldl_nil, updateText]
    by_cases hd : docId = ascii "d" <;> by_cases he : docId = ascii "e" <;>
      simp [hd, he, Function.update, hne, hne.symm]
  obtain ⟨_, found, found', -, hretrieve, hretrieve', hscores, -⟩ := retrieval_forgets_history
    (MockEmbeddingModel.model 8) (mock_embeds (by decide)) .cosine (mock_embedsIn (by decide) .cosine) mockRag rfl rfl
    mockEngine create_mockEngine mockCalls [.ingest ⟨ascii "d", ascii "the slow fox"⟩] htexts (ascii "a quick fox") 3
  have hfound := retrieve_mockCalls
  rw [hretrieve] at hfound
  exact ⟨found, found', hretrieve, hretrieve', Except.ok.inj hfound, hscores⟩

/-! ### Prompts -/

/-- **A prompt quotes the nearest chunks.** With a flat index and one of the source's metrics in single precision,
after any ingests and removals the prompt for a query quotes chunks of the current texts, closest first and in full,
up to the first that the budget has no room for. With up to ten chunks retrieved, and room for the query and the
fixed text, it is within the budget. The model returns vectors of the dimension, with components the metric suits. -/
theorem prompt_quotes_nearest (model : EmbeddingModel) (hembed : Embeds model) (kind : MetricKind)
    (hmodel : EmbedsIn kind.Suits model) (cfg : RagConfig Float32) (hmetric : cfg.metric = kind.metric)
    (hflat : cfg.index = .flat) (r₀ : RagEngine) (hcreate : create model cfg = .ok r₀) (calls : List RagCall)
    (prompts : PromptConfig) (query : Bytes) :
    ∃ qv found places n, model.embed query = .ok qv ∧
      RetrievesNearest model cfg (currentTexts calls) qv
        (min prompts.retrieveK (r₀.run model cfg calls).engine.store.size) places found ∧
      (r₀.run model cfg calls).buildPrompt model cfg prompts query =
        .ok (PromptBuilder.promptOf query (found.take n)) ∧
      n ≤ found.length ∧
      (∀ m ≤ found.length, m ≤ n ↔
        PromptBuilder.cost found m ≤ prompts.tokenBudget - (approxTokens query + PromptBuilder.kScaffoldTokens)) ∧
      (prompts.retrieveK ≤ 10 → approxTokens query + PromptBuilder.kScaffoldTokens ≤ prompts.tokenBudget →
        approxTokens (PromptBuilder.promptOf query (found.take n)) ≤ prompts.tokenBudget) := by
  obtain ⟨h, hstore⟩ := consistent_ordered hmetric hembed hmodel hcreate calls
  obtain ⟨qv, hqv, hlen⟩ := hembed query
  obtain ⟨found, places, hretrieve, hnearest, -⟩ :=
    h.retrieves_nearest hmetric hflat hstore hqv hlen (hmodel query qv hqv) prompts.retrieveK
  obtain ⟨n, hn, hbuild, hfits, htokens⟩ := PromptBuilder.build_quotes prompts.tokenBudget query found
  refine ⟨qv, found, places, n, hqv, hnearest, ?_, hn, hfits, fun hk hbudget => ?_⟩
  · rw [buildPrompt, hretrieve, ← hbuild]
    rfl
  · have hlength := hnearest.length_eq
    have hcost := (hfits n hn).mp le_rfl
    rw [htokens, PromptBuilder.promptTokens]
    rw [PromptBuilder.kScaffoldTokens] at hbudget hcost
    omega

theorem prompt_quotes_nearest_sample : ∃ found n,
    (mockEngine.run (MockEmbeddingModel.model 8) mockRag mockCalls).buildPrompt (MockEmbeddingModel.model 8) mockRag {}
      (ascii "a quick fox") = .ok (PromptBuilder.promptOf (ascii "a quick fox") (found.take n)) ∧
    (found : List (RetrievedChunk Float32)).length = 1 ∧
    approxTokens (PromptBuilder.promptOf (ascii "a quick fox") (found.take n)) ≤ 512 := by
  obtain ⟨_, found, _, n, -, hnearest, hprompt, -, -, hwithin⟩ := prompt_quotes_nearest (MockEmbeddingModel.model 8)
    (mock_embeds (by decide)) .cosine (mock_embedsIn (by decide) .cosine) mockRag rfl rfl mockEngine create_mockEngine
    mockCalls {} (ascii "a quick fox")
  exact ⟨found, n, hprompt, hnearest.length_eq.trans (by decide +kernel), hwithin (by decide) (by decide +kernel)⟩

end RagEngine

end ToyVdb
