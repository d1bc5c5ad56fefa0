import ToyVdb.Rag.Consistency

/-!
# Ingests that fail

An ingest erases the chunks on record, inserts the new ones one by one and corrects the record at the end.
When the embedding model throws at a chunk, or answers with a vector that the insert rejects, the ingest
throws too, and leaves behind what it has done so far: the old chunks are gone, the new ones in front of
the failing one are live, and the record is still the old one. So the store is as before only where the
document already had just these chunks, and chunks beyond the old record stay when the document is removed.

The scores of the engine are linearly ordered, so an undefined distance is not among what can go wrong.
-/

namespace ToyVdb

namespace RagEngine

open Engine

variable {Score : Type}

/-- An assumption on the model, which may return vectors of any length: it returns none of `2 ^ 32` components or
more, which an insert would take for shorter ones. -/
def SmallAnswers (answer : Chunk → Nat → Except Error Vec) : Prop :=
  ∀ chunk i vec, answer chunk i = .ok vec → vec.length < 2 ^ 32

/-- What the embedding model answers while a call runs, for each chunk. -/
structure Answers where
  answer : Chunk → Nat → Except Error Vec
  small : SmallAnswers answer

section Exec

variable [LT Score] [DecidableLT Score] (model : EmbeddingModel) (cfg : RagConfig Score)

/-- `ingest`, with the model's answers. -/
def ingestAnswered (answer : Chunk → Nat → Except Error Vec) (r : RagEngine) (doc : Document) :
    Except Error Nat × RagEngine :=
  match eraseChunks model cfg doc.id (r.recordedChunks doc.id) r.engine with
  | (.error err, e) => (.error err, { r with engine := e })
  | (.ok (), e) =>
    let chunks := chunkText doc.text cfg.chunk
    match insertAnswered model cfg answer doc.id chunks.zipIdx e with
    | (.error err, e) => (.error err, { r with engine := e })
    | (.ok (), e) =>
      (.ok chunks.length,
        { engine := e
          docChunks := if chunks.isEmpty then r.docChunks.erase doc.id else r.docChunks.insert doc.id chunks.length })

/-- A call, while the model answers as given. -/
def callAnswered (r : RagEngine) : RagCall × Answers → RagEngine
  | (.ingest doc, answers) => (ingestAnswered model cfg answers.answer r doc).2
  | (.remove docId, _) => (r.remove model cfg docId).2

/-- A sequence of calls; one that throws leaves the engine as it is then. -/
def runAnswered (r : RagEngine) (calls : List (RagCall × Answers)) : RagEngine :=
  calls.foldl (callAnswered model cfg) r

end Exec

variable [LinearOrder Score] {model : EmbeddingModel} {cfg : RagConfig Score} {r : RagEngine} {e : Engine}

theorem ingest_eq (model : EmbeddingModel) (cfg : RagConfig Score) (r : RagEngine) (doc : Document) :
    r.ingest model cfg doc = ingestAnswered model cfg (fun chunk _ => model.embed chunk.text) r doc := by
  rw [ingest, ingestAnswered]
  cases eraseChunks model cfg doc.id (r.recordedChunks doc.id) r.engine with
  | mk result e =>
  cases result with
  | error err => rfl
  | ok u =>
      cases hanswered : insertAnswered model cfg (fun chunk _ => model.embed chunk.text) doc.id
        (chunkText doc.text cfg.chunk).zipIdx e with
      | mk result e' =>
          have hinsert := (insertChunks_eq model cfg doc.id
            (chunkText doc.text cfg.chunk).zipIdx e).trans hanswered
          cases result with
          | error err => simp only [hinsert, hanswered]
          | ok u => simp only [hinsert, hanswered]

/-! ### The engine stays ready -/

theorem ready_insertAnswered (h : Ready (engineConfig model cfg) e) (docId : Bytes) (answers : Answers)
    (items : List (Chunk × Nat)) :
    Ready (engineConfig model cfg) (insertAnswered model cfg answers.answer docId items e).2 := by
  induction items generalizing e with
  | nil => exact h
  | cons item items ih =>
      obtain ⟨chunk, i⟩ := item
      cases hreceived : received model.dim (answers.answer chunk i) with
      | ok vec =>
          obtain ⟨e', hcall, hready, -⟩ := insertAnswered_cons_ok h docId hreceived items
          rw [hcall]
          exact ih hready
      | error err =>
          obtain ⟨e', hcall, hready, -⟩ :=
            insertAnswered_cons_error h docId (answers.small chunk i) hreceived items
          rw [hcall]
          exact hready

theorem ready_callAnswered (h : Ready (engineConfig model cfg) r.engine) (next : RagCall × Answers) :
    Ready (engineConfig model cfg) (callAnswered model cfg r next).engine := by
  obtain ⟨call, answers⟩ := next
  cases call with
  | ingest doc =>
      obtain ⟨e₁, herase, h₁, -⟩ := eraseChunks_spec h doc.id (r.recordedChunks doc.id)
      have h₂ := ready_insertAnswered h₁ doc.id answers (chunkText doc.text cfg.chunk).zipIdx
      rw [callAnswered, ingestAnswered, herase]
      dsimp only
      cases hinsert : insertAnswered model cfg answers.answer doc.id
        (chunkText doc.text cfg.chunk).zipIdx e₁ with
      | mk result e₂ =>
      rw [hinsert] at h₂
      cases result <;> exact h₂
  | remove docId =>
      rw [callAnswered, remove]
      cases r.docChunks.lookup docId with
      | none => exact h
      | some count =>
          obtain ⟨e₁, herase, h₁, -⟩ := eraseChunks_spec h docId (List.range count)
          dsimp only
          rw [herase]
          exact h₁

theorem ready_runAnswered (h : Ready (engineConfig model cfg) r.engine) (calls : List (RagCall × Answers)) :
    Ready (engineConfig model cfg) (runAnswered model cfg r calls).engine := by
  induction calls generalizing r with
  | nil => exact h
  | cons next calls ih => exact ih (ready_callAnswered h next)

theorem ready_create (hcreate : create model cfg = .ok r) : Ready (engineConfig model cfg) r.engine :=
  (consistent_create hcreate).toReady

/-! ### What a failed ingest leaves behind -/

theorem zipIdx_eq_of_getElem? {chunks : List Chunk} {j : Nat} {chunk : Chunk}
    (hchunk : chunks[j]? = some chunk) :
    chunks.zipIdx = (chunks.take j).zipIdx ++ (chunk, j) :: (chunks.drop (j + 1)).zipIdx (j + 1) := by
  obtain ⟨hlt, rfl⟩ := List.getElem?_eq_some_iff.mp hchunk
  have hsplit : chunks = chunks.take j ++ chunks[j] :: chunks.drop (j + 1) := by
    rw [List.getElem_cons_drop, List.take_append_drop]
  have hlen : (chunks.take j).length = j := List.length_take_of_le hlt.le
  conv_lhs => rw [hsplit]
  rw [List.zipIdx_append, List.zipIdx_cons, hlen, Nat.zero_add]

theorem mem_zipIdx_take_iff {chunks : List Chunk} {j i : Nat} {chunk : Chunk} :
    (chunk, i) ∈ (chunks.take j).zipIdx ↔ i < j ∧ chunks[i]? = some chunk := by
  rw [List.mk_mem_zipIdx_iff_getElem?, List.getElem?_take]
  split_ifs with hlt
  · exact ⟨fun hget => ⟨hlt, hget⟩, fun h => h.2⟩
  · simp [hlt]

/-- The ingest fails at chunk `j`, after the chunks in front of it were inserted. -/
structure FailsAt (dim : UInt32) (answers : Answers) (chunks : List Chunk) (j : Nat) (err : Error) :
    Prop where
  before : ∀ i chunk, i < j → chunks[i]? = some chunk →
    ∃ vec, received dim (answers.answer chunk i) = .ok vec
  fails : ∃ chunk, chunks[j]? = some chunk ∧ received dim (answers.answer chunk j) = .error err

theorem FailsAt.lt_length {dim : UInt32} {answers : Answers} {chunks : List Chunk} {j : Nat} {err : Error}
    (h : FailsAt dim answers chunks j err) : j < chunks.length := by
  obtain ⟨chunk, hchunk, -⟩ := h.fails
  exact (List.getElem?_eq_some_iff.mp hchunk).1

/-- What is in the store after an ingest that failed at chunk `j`: the old chunks have made way for the new
ones in front of the one that failed. -/
structure Leftover (cfg : RagConfig Score) (r : RagEngine) (answers : Answers) (doc : Document) (j : Nat)
    (e : Engine) : Prop where
  new : ∀ i chunk, i < j → (chunkText doc.text cfg.chunk)[i]? = some chunk → ∃ vec,
    answers.answer chunk i = .ok vec ∧
    e.store.content (chunkKey doc.id i) = some ⟨vec, chunkMetadata doc.id chunk.text⟩
  old : ∀ i, j ≤ i → e.store.content (chunkKey doc.id i) =
    if i ∈ r.recordedChunks doc.id then none else r.engine.store.content (chunkKey doc.id i)
  others : ∀ x, (∀ i, x ≠ chunkKey doc.id i) → e.store.content x = r.engine.store.content x

/-- It throws what the model or the insert threw, and does not touch the record. -/
theorem ingestAnswered_fails (h : Ready (engineConfig model cfg) r.engine) (doc : Document)
    (answers : Answers) {j : Nat} {err : Error}
    (hfails : FailsAt model.dim answers (chunkText doc.text cfg.chunk) j err) :
    ∃ e, ingestAnswered model cfg answers.answer r doc = (.error err, { r with engine := e }) ∧
      Ready (engineConfig model cfg) e ∧ Leftover cfg r answers doc j e := by
  obtain ⟨chunk, hchunk, hfail⟩ := hfails.fails
  generalize hchunks : chunkText doc.text cfg.chunk = chunks at hchunk hfails
  obtain ⟨e₁, herase, h₁, hcontent₁⟩ := eraseChunks_spec h doc.id (r.recordedChunks doc.id)
  have hlen : (chunks.take j).length = j := List.length_take_of_le hfails.lt_length.le
  have hnumbers : (chunks.take j).zipIdx.map Prod.snd = List.range j := by
    rw [List.zipIdx_map_snd, hlen, List.range_eq_range']
  have hkeys : (chunks.take j).zipIdx.map (fun item => chunkKey doc.id item.2)
      = (List.range j).map (chunkKey doc.id) := by
    rw [← hnumbers, List.map_map]
    rfl
  have hok : ∀ item ∈ (chunks.take j).zipIdx,
      ∃ vec, received model.dim (answers.answer item.1 item.2) = .ok vec := by
    rintro ⟨chunk', i⟩ hitem
    obtain ⟨hlt, hget⟩ := mem_zipIdx_take_iff.mp hitem
    exact hfails.before i chunk' hlt hget
  obtain ⟨e₂, hinsert, h₂, hstores, hothers⟩ := insertAnswered_append answers.answer h₁ doc.id
    (chunks.take j).zipIdx ((chunk, j) :: (chunks.drop (j + 1)).zipIdx (j + 1))
    (by rw [hnumbers]; exact List.nodup_range) hok
  obtain ⟨e₃, hthrows, h₃, hcontent₃⟩ := insertAnswered_cons_error h₂ doc.id (answers.small chunk j) hfail
    ((chunks.drop (j + 1)).zipIdx (j + 1))
  rw [hkeys] at hothers
  refine ⟨e₃, ?_, h₃, fun i chunk' hlt hget => ?_, fun i hle => ?_, fun x hx => ?_⟩
  · rw [ingestAnswered, herase]
    dsimp only
    rw [hchunks, zipIdx_eq_of_getElem? hchunk, hinsert, hthrows]
  · rw [hchunks] at hget
    obtain ⟨vec, hvec, hstored⟩ := hstores (chunk', i) (mem_zipIdx_take_iff.mpr ⟨hlt, hget⟩)
    refine ⟨vec, (received_eq_ok_iff.mp hvec).1, ?_⟩
    rw [hcontent₃]
    exact hstored
  · have hout : chunkKey doc.id i ∉ (List.range j).map (chunkKey doc.id) :=
      fun hmem => absurd (mem_chunkKeys.mp hmem) (by omega)
    rw [hcontent₃, hothers _ hout, hcontent₁]
    simp only [chunkKey_mem_map]
  · have hout : x ∉ (r.recordedChunks doc.id).map (chunkKey doc.id) := by
      intro hmem
      obtain ⟨i, -, heq⟩ := List.mem_map.mp hmem
      exact hx i heq.symm
    rw [hcontent₃, hothers _ (notMem_chunkKeys hx j), hcontent₁, if_neg hout]

/-- What a removal leaves of a document are the chunks that are not on record. -/
theorem remove_content (h : Ready (engineConfig model cfg) r.engine) (docId : Bytes) (i : Nat) :
    (r.remove model cfg docId).2.engine.store.content (chunkKey docId i) =
      if i ∈ r.recordedChunks docId then none else r.engine.store.content (chunkKey docId i) := by
  rw [remove, recordedChunks]
  cases r.docChunks.lookup docId with
  | none => exact (if_neg List.not_mem_nil).symm
  | some count =>
      obtain ⟨e, herase, -, hcontent⟩ := eraseChunks_spec h docId (List.range count)
      dsimp only
      rw [herase]
      dsimp only
      rw [hcontent]
      simp only [chunkKey_mem_map]

theorem mem_recordedChunks {docId : Bytes} {i : Nat} :
    i ∈ r.recordedChunks docId ↔ i < (r.recordedChunks docId).length := by
  rw [recordedChunks]
  cases r.docChunks.lookup docId with
  | none => simp
  | some count => simp

/-! ### When nothing is left behind -/

/-- The exception is passed on, entries and record are as before the call, and a removal of the document
erases all of its chunks. -/
def LeavesNoTrace (model : EmbeddingModel) (cfg : RagConfig Score) (r : RagEngine) (answers : Answers)
    (doc : Document) (err : Error) : Prop :=
  (ingestAnswered model cfg answers.answer r doc).1 = .error err ∧
    (ingestAnswered model cfg answers.answer r doc).2.engine.store.content = r.engine.store.content ∧
    (ingestAnswered model cfg answers.answer r doc).2.docChunks = r.docChunks ∧
    ∀ i, ((ingestAnswered model cfg answers.answer r doc).2.remove model cfg doc.id).2.engine.store.content
      (chunkKey doc.id i) = none

/-- Before the call the document has exactly the chunks in front of the failing one, just as they are about
to be stored, and has them on record. -/
structure AlreadyStored (cfg : RagConfig Score) (r : RagEngine) (answers : Answers) (doc : Document)
    (j : Nat) : Prop where
  recorded : j ≤ (r.recordedChunks doc.id).length
  stored : ∀ i chunk, i < j → (chunkText doc.text cfg.chunk)[i]? = some chunk → ∃ vec,
    answers.answer chunk i = .ok vec ∧
    r.engine.store.content (chunkKey doc.id i) = some ⟨vec, chunkMetadata doc.id chunk.text⟩
  others : ∀ i, j ≤ i → r.engine.store.content (chunkKey doc.id i) = none

section Leftover

variable {doc : Document} {answers : Answers} {j : Nat}

omit [LinearOrder Score] in
theorem Leftover.alreadyStored (hleft : Leftover cfg r answers doc j e)
    (hj : j ≤ (chunkText doc.text cfg.chunk).length) (hcontent : e.store.content = r.engine.store.content)
    (hremoved : ∀ i, (if i ∈ r.recordedChunks doc.id then none else e.store.content
      (chunkKey doc.id i)) = none) :
    AlreadyStored cfg r answers doc j := by
  refine ⟨?_, fun i chunk hlt hget => ?_, fun i hle => ?_⟩
  · -- A chunk beyond the record would be left over.
    by_contra hmore
    obtain ⟨vec, -, hlive⟩ := hleft.new (r.recordedChunks doc.id).length _ (by omega)
      (List.getElem?_eq_getElem (by omega))
    have hgone := hremoved (r.recordedChunks doc.id).length
    rw [if_neg fun hmem => absurd (mem_recordedChunks.mp hmem) (lt_irrefl _), hlive] at hgone
    cases hgone
  · rw [← hcontent]
    exact hleft.new i chunk hlt hget
  · have hgone := hremoved i
    rw [← hcontent, hleft.old i hle]
    split_ifs at hgone ⊢ with hmem
    · rfl
    · rwa [hleft.old i hle, if_neg hmem] at hgone

omit [LinearOrder Score] in
theorem Leftover.content_eq (hleft : Leftover cfg r answers doc j e)
    (hj : j ≤ (chunkText doc.text cfg.chunk).length) (hstored : AlreadyStored cfg r answers doc j) :
    e.store.content = r.engine.store.content := by
  ext1 x
  by_cases hkey : ∃ i, x = chunkKey doc.id i
  · obtain ⟨i, rfl⟩ := hkey
    rcases Nat.lt_or_ge i j with hlt | hle
    · have hchunk := List.getElem?_eq_getElem (hlt.trans_le hj)
      obtain ⟨vec, hvec, hlive⟩ := hleft.new i _ hlt hchunk
      obtain ⟨vec', hvec', hlive'⟩ := hstored.stored i _ hlt hchunk
      rw [hlive, hlive', Except.ok.inj (hvec.symm.trans hvec')]
    · rw [hleft.old i hle, hstored.others i hle]
      exact ite_self _
  · exact hleft.others x fun i heq => hkey ⟨i, heq⟩

end Leftover

theorem leavesNoTrace_iff (h : Ready (engineConfig model cfg) r.engine) (doc : Document) (answers : Answers)
    {j : Nat} {err : Error} (hfails : FailsAt model.dim answers (chunkText doc.text cfg.chunk) j err) :
    LeavesNoTrace model cfg r answers doc err ↔ AlreadyStored cfg r answers doc j := by
  obtain ⟨e, hingest, hready, hleft⟩ := ingestAnswered_fails h doc answers hfails
  have hremove := remove_content (r := { r with engine := e }) hready doc.id
  have hrecorded : RagEngine.recordedChunks { r with engine := e } doc.id = r.recordedChunks doc.id := rfl
  rw [hrecorded] at hremove
  rw [LeavesNoTrace, hingest]
  dsimp only
  constructor
  · rintro ⟨-, hcontent, -, hremoved⟩
    exact hleft.alreadyStored hfails.lt_length.le hcontent fun i => (hremove i).symm.trans (hremoved i)
  · intro hstored
    have hcontent := hleft.content_eq hfails.lt_length.le hstored
    refine ⟨rfl, hcontent, rfl, fun i => ?_⟩
    rw [hremove]
    split_ifs with hmem
    · rfl
    · have hle := hstored.recorded
      rw [mem_recordedChunks] at hmem
      rw [hcontent]
      exact hstored.others i (by omega)

/-- In every state that calls reach, failed ones among them, and wherever an ingest fails, it leaves no trace
exactly if the document already had the chunks in front of the failing one and no others. -/
theorem failed_ingest_leaves_no_trace_iff (model : EmbeddingModel) (cfg : RagConfig Score) (r₀ : RagEngine)
    (hcreate : create model cfg = .ok r₀) (calls : List (RagCall × Answers)) (doc : Document)
    (answers : Answers) (j : Nat) (err : Error)
    (hfails : FailsAt model.dim answers (chunkText doc.text cfg.chunk) j err) :
    LeavesNoTrace model cfg (runAnswered model cfg r₀ calls) answers doc err ↔
      AlreadyStored cfg (runAnswered model cfg r₀ calls) answers doc j :=
  leavesNoTrace_iff (ready_runAnswered (ready_create hcreate) calls) doc answers hfails

/-- A model that answers. -/
def answering : Answers := ⟨fun _ _ => .ok [0], fun _ _ _ heq => by cases heq; decide⟩

/-- A model that is lost after the first chunk. -/
def lostAfterFirst : Answers :=
  ⟨fun _ i => if i = 0 then .ok [0] else .error (.runtimeError "embed"), fun _ i _ heq => by
    dsimp only at heq
    split_ifs at heq
    cases heq
    decide⟩

/-- A document of one chunk is on record, and fails to grow by a second one. -/
theorem failed_ingest_leaves_no_trace_sample :
    ∃ r₀, create sampleModel sampleRag = .ok r₀ ∧
      (runAnswered sampleModel sampleRag r₀ [(.ingest ⟨ascii "d", ascii "a b"⟩, answering)]).engine.store.content
        (chunkKey (ascii "d") 0) = some ⟨[0], chunkMetadata (ascii "d") (ascii "a b")⟩ ∧
      LeavesNoTrace sampleModel sampleRag
        (runAnswered sampleModel sampleRag r₀ [(.ingest ⟨ascii "d", ascii "a b"⟩, answering)])
        lostAfterFirst ⟨ascii "d", ascii "a b c"⟩ (.runtimeError "embed") := by
  obtain ⟨r₀, hcreate⟩ : ∃ r₀, create sampleModel sampleRag = .ok r₀ := ⟨_, rfl⟩
  have hchunk : (chunkText (ascii "a b c") sampleRag.chunk)[0]? = some ⟨ascii "a b", 0, 2⟩ := by decide +kernel
  have hstored : (runAnswered sampleModel sampleRag r₀
      [(.ingest ⟨ascii "d", ascii "a b"⟩, answering)]).engine.store.content (chunkKey (ascii "d") 0) =
        some ⟨[0], chunkMetadata (ascii "d") (ascii "a b")⟩ := by
    cases hcreate
    decide +kernel
  refine ⟨r₀, hcreate, hstored, (failed_ingest_leaves_no_trace_iff sampleModel sampleRag r₀ hcreate
    [(.ingest ⟨ascii "d", ascii "a b"⟩, answering)] ⟨ascii "d", ascii "a b c"⟩ lostAfterFirst 1
    (.runtimeError "embed") ⟨fun i _ hlt _ => ?_, ?_⟩).mpr ⟨?_, fun i chunk hlt hget => ?_, fun i hle => ?_⟩⟩
  · rw [Nat.lt_one_iff.mp hlt]
    exact ⟨[0], rfl⟩
  · exact ⟨⟨ascii "b c", 1, 3⟩, by decide +kernel, rfl⟩
  · cases hcreate
    decide +kernel
  · rw [Nat.lt_one_iff.mp hlt] at hget ⊢
    cases hchunk.symm.trans hget
    exact ⟨[0], rfl, hstored⟩
  · -- the document had one chunk
    have h : Consistent sampleModel sampleRag _ _ := (consistent_create hcreate).run (fun _ => ⟨[0], rfl, rfl⟩)
      [.ingest ⟨ascii "d", ascii "a b"⟩]
    have hrun : runAnswered sampleModel sampleRag r₀ [(.ingest ⟨ascii "d", ascii "a b"⟩, answering)] =
        r₀.run sampleModel sampleRag [.ingest ⟨ascii "d", ascii "a b"⟩] := by
      rw [run, List.foldl_cons, List.foldl_nil, call, ingest_eq]
      rfl
    rw [hrun]
    refine Option.eq_none_iff_forall_ne_some.mpr fun entry hentry => ?_
    obtain ⟨docId, i', chunk, hkey, hget, -⟩ := (h.content_iff _ _).mp hentry
    obtain ⟨rfl, rfl⟩ := chunkKey_inj hkey
    have hlength : (chunksOf sampleRag (currentTexts [.ingest ⟨ascii "d", ascii "a b"⟩]) (ascii "d")).length = 1 := by
      decide +kernel
    have hlt : i < (chunksOf sampleRag (currentTexts [.ingest ⟨ascii "d", ascii "a b"⟩]) (ascii "d")).length :=
      (List.getElem?_eq_some_iff.mp hget).1
    omega

/-- A model that does not take one of the texts. -/
def pickyModel : EmbeddingModel :=
  ⟨1, fun text => if text = ascii "b c" then .error (.runtimeError "embed") else .ok [0]⟩

/-- The second chunk of a new document fails: the first one is live, and a removal of the document does not
find it. -/
theorem failed_ingest_leaves_chunk :
    ∃ r₀, create pickyModel sampleRag = .ok r₀ ∧
      (r₀.ingest pickyModel sampleRag ⟨ascii "d", ascii "a b c"⟩).1 = .error (.runtimeError "embed") ∧
      r₀.engine.store.content (chunkKey (ascii "d") 0) = none ∧
      (r₀.ingest pickyModel sampleRag ⟨ascii "d", ascii "a b c"⟩).2.engine.store.content
        (chunkKey (ascii "d") 0)
        = some ⟨[0], chunkMetadata (ascii "d") (ascii "a b")⟩ ∧
      ((r₀.ingest pickyModel sampleRag ⟨ascii "d", ascii "a b c"⟩).2.remove pickyModel sampleRag
        (ascii "d")).1
        = .ok false ∧
      ((r₀.ingest pickyModel sampleRag ⟨ascii "d", ascii "a b c"⟩).2.remove pickyModel sampleRag
        (ascii "d")).2.engine.store.content (chunkKey (ascii "d") 0) ≠ none := by
  exact ⟨_, rfl, by decide +kernel⟩

end RagEngine

end ToyVdb
