import ToyVdb.Rag.Keys
import ToyVdb.Engine.Durable

/-!
# The loops over the chunks of a document

A document's chunks are erased and inserted one by one, and each round is a call on an engine in memory.
What an insert is given depends on what the embedding model answers in that round. The model may be a
remote service, so its answers are taken as they come, one for each chunk, and need not be determined by
the text; a model that is a function of the text is a special case.

The scores of the engine are linearly ordered, so an embedding has no undefined distance to another.
-/

namespace ToyVdb

/-! ### Calls on an engine in memory -/

namespace Engine

variable {Score : Type} {cfg : EngineConfig Score} {e : Engine} {order : IterOrder}

/-- The engine is well formed, and so is what it stores. -/
structure Ready (cfg : EngineConfig Score) (e : Engine) : Prop where
  wf : e.Wf cfg
  store : e.store.Wf

variable [LinearOrder Score]

theorem Ready.write (h : Ready cfg e) (order : IterOrder) {w : Write}
    (hfits : w.op.type ≠ .delete → w.op.Fits cfg.dim) :
    (∃ u, (w.exec cfg order e).1 = .ok u) ∧ Ready cfg (w.exec cfg order e).2 ∧
      (w.exec cfg order e).2.store.content = KeyedLog.write e.store.content (w.op.write cfg.dim) := by
  have hwritten := h.wf.write order w
  have hlen : w.op.vec.length < 2 ^ 32 := by
    by_cases hdelete : w.op.type = .delete
    · rw [(op_delete hdelete).1]
      decide
    · rw [show w.op.vec.length = cfg.dim.toNat from hfits hdelete]
      exact cfg.dim.toNat_lt
  obtain ⟨hstore, hcontent⟩ := hwritten.content_eq h.wf h.store fun _ => hlen
  refine ⟨?_, ⟨hwritten.wf h.wf, hstore⟩, hcontent⟩
  have haccepted : Accepted e (.call (.write w)) := accepted_of_fitsDim h.wf hfits
  have hok : ¬ ∃ err, (w.exec cfg order e).1 = .error err :=
    fun hthrown => haccepted (hwritten.rejects_iff.mpr hthrown)
  cases hresult : (w.exec cfg order e).1 with
  | ok u => exact ⟨u, rfl⟩
  | error err => exact absurd ⟨err, hresult⟩ hok

theorem Ready.erase (h : Ready cfg e) (order : IterOrder) (x : Bytes) :
    ∃ b e', e.erase cfg order x = (.ok b, e') ∧ Ready cfg e' ∧
      e'.store.content = Function.update e.store.content x none := by
  obtain ⟨⟨u, hresult⟩, hready, hcontent⟩ := h.write order (w := .erase x) fun hdelete => absurd rfl hdelete
  cases hcall : e.erase cfg order x with
  | mk r e' =>
  rw [Write.exec, hcall] at hresult hready hcontent
  cases r with
  | ok b => exact ⟨b, e', rfl, hready, hcontent.trans rfl⟩
  | error err => cases hresult

theorem Ready.insert (h : Ready cfg e) (order : IterOrder) (x : Bytes) {vec : Vec}
    (hvec : vec.length = cfg.dim.toNat)
    (m : Metadata) :
    ∃ id e', e.insert cfg order x vec m = (.ok id, e') ∧ Ready cfg e' ∧
      e'.store.content = Function.update e.store.content x (some ⟨vec, m⟩) := by
  obtain ⟨⟨u, hresult⟩, hready, hcontent⟩ := h.write order (w := .insert x vec m) fun _ => hvec
  cases hcall : e.insert cfg order x vec m with
  | mk r e' =>
  rw [Write.exec, hcall] at hresult hready hcontent
  cases r with
  | ok id =>
      refine ⟨id, e', rfl, hready, hcontent.trans ?_⟩
      show Function.update e.store.content x
        (Op.effect cfg.dim ⟨.insert, x, vec, some m⟩ (e.store.content x)) = _
      rw [Op.effect_insert rfl (show Op.Fits cfg.dim ⟨.insert, x, vec, some m⟩ from hvec)]
      rfl
  | error err => cases hresult

theorem Ready.insert_rejected (h : Ready cfg e) (order : IterOrder) (x : Bytes) {vec : Vec}
    (hsmall : vec.length < 2 ^ 32) (hvec : vec.length ≠ cfg.dim.toNat) (m : Metadata) :
    ∃ e', e.insert cfg order x vec m
        = (.error (.invalidArgument "VectorStore: vector dimensionality mismatch"), e') ∧
      Ready cfg e' ∧ e'.store.content = e.store.content := by
  have hdim : UInt32.ofNat vec.length ≠ e.store.dim := by
    rw [h.wf.dim_eq, ne_eq, VectorStore.ofNat_length_eq_iff hsmall]
    exact hvec
  have hstore : (e.logOp order ⟨.insert, x, vec, some m⟩).store = e.store := rfl
  refine ⟨e.logOp order ⟨.insert, x, vec, some m⟩, ?_, ⟨h.wf.logOp order _, h.store⟩, rfl⟩
  simp only [Engine.insert, applyOp, mutate, VectorStore.apply, VectorStore.doInsert, hstore,
    VectorStore.validateDim_error hdim]
  rfl

end Engine

namespace RagEngine

open Engine

variable {Score : Type} {model : EmbeddingModel} {cfg : RagConfig Score} {e : Engine} {docId : Bytes}

/-! ### The model's answers -/

section Answered

variable [LT Score] [DecidableLT Score] (model : EmbeddingModel) (cfg : RagConfig Score)
  (answer : Chunk → Nat → Except Error Vec)

/-- Embed and insert the chunks, with the model's answers. -/
def insertAnswered (docId : Bytes) : List (Chunk × Nat) → Engine → Except Error Unit × Engine
  | [], e => (.ok (), e)
  | (chunk, i) :: rest, e =>
    match answer chunk i with
    | .error err => (.error err, e)
    | .ok vec =>
      match e.insert (engineConfig model cfg) .byKey (chunkKey docId i) vec
        (chunkMetadata docId chunk.text) with
      | (.error err, e) => (.error err, e)
      | (.ok _, e) => insertAnswered docId rest e

end Answered

/-- What an answer comes to: a vector that is inserted, or what is thrown, be it by the model or by the
insert. -/
def received (dim : UInt32) : Except Error Vec → Except Error Vec
  | .error err => .error err
  | .ok vec =>
    if vec.length = dim.toNat then .ok vec
    else .error (.invalidArgument "VectorStore: vector dimensionality mismatch")

theorem received_eq_ok_iff {dim : UInt32} {answer : Except Error Vec} {vec : Vec} :
    received dim answer = .ok vec ↔ answer = .ok vec ∧ vec.length = dim.toNat := by
  cases answer with
  | error err => simp [received]
  | ok vec' =>
      rw [received]
      split_ifs with hlen
      · exact ⟨fun heq => ⟨heq, Except.ok.inj heq ▸ hlen⟩, fun h => h.1⟩
      · constructor
        · intro heq
          cases heq
        · rintro ⟨heq, hvec⟩
          exact absurd (Except.ok.inj heq ▸ hvec) hlen

/-! ### Erasing -/

theorem chunkKey_mem_map {numbers : List Nat} {i : Nat} :
    chunkKey docId i ∈ numbers.map (chunkKey docId) ↔ i ∈ numbers :=
  List.mem_map_of_injective fun _ _ heq => (chunkKey_inj heq).2

theorem mem_chunkKeys {n i : Nat} : chunkKey docId i ∈ (List.range n).map (chunkKey docId) ↔ i < n := by
  rw [chunkKey_mem_map, List.mem_range]

theorem notMem_chunkKeys {x : Bytes} (hx : ∀ i, x ≠ chunkKey docId i) (n : Nat) :
    x ∉ (List.range n).map (chunkKey docId) := by
  intro hmem
  obtain ⟨i, -, heq⟩ := List.mem_map.mp hmem
  exact hx i heq.symm

variable [LinearOrder Score]

theorem eraseChunks_spec (h : Ready (engineConfig model cfg) e) (docId : Bytes) (numbers : List Nat) :
    ∃ e', eraseChunks model cfg docId numbers e = (.ok (), e') ∧ Ready (engineConfig model cfg) e' ∧
      ∀ x, e'.store.content x = if x ∈ numbers.map (chunkKey docId) then none else e.store.content x := by
  induction numbers generalizing e with
  | nil => exact ⟨e, rfl, h, fun x => (if_neg List.not_mem_nil).symm⟩
  | cons i numbers ih =>
      obtain ⟨b, e₁, hcall, hready, hcontent⟩ := h.erase .byKey (chunkKey docId i)
      obtain ⟨e₂, hrest, hready₂, hcontent₂⟩ := ih hready
      refine ⟨e₂, ?_, hready₂, fun x => ?_⟩
      · rw [eraseChunks, hcall]
        exact hrest
      · rw [hcontent₂, hcontent, List.map_cons]
        by_cases hmem : x ∈ numbers.map (chunkKey docId)
        · rw [if_pos hmem, if_pos (List.mem_cons_of_mem _ hmem)]
        · rw [if_neg hmem]
          by_cases hkey : x = chunkKey docId i
          · rw [hkey, Function.update_self, if_pos List.mem_cons_self]
          · have hout : x ∉ chunkKey docId i :: numbers.map (chunkKey docId) :=
              fun hx => (List.mem_cons.mp hx).elim hkey hmem
            rw [Function.update_of_ne hkey, if_neg hout]

/-! ### Inserting -/

theorem insertChunks_eq (model : EmbeddingModel) (cfg : RagConfig Score) (docId : Bytes)
    (items : List (Chunk × Nat)) (e : Engine) :
    insertChunks model cfg docId items e
      = insertAnswered model cfg (fun chunk _ => model.embed chunk.text) docId items e := by
  induction items generalizing e with
  | nil => rfl
  | cons item items ih =>
      obtain ⟨chunk, i⟩ := item
      rw [insertChunks, insertAnswered]
      cases model.embed chunk.text with
      | error err => rfl
      | ok vec =>
          dsimp only
          cases e.insert (engineConfig model cfg) .byKey (chunkKey docId i) vec
            (chunkMetadata docId chunk.text) with
          | mk result e' =>
          cases result with
          | error err => rfl
          | ok id => exact ih e'

variable {answer : Chunk → Nat → Except Error Vec} {chunk : Chunk} {i : Nat}

theorem insertAnswered_cons_ok (h : Ready (engineConfig model cfg) e) (docId : Bytes) {vec : Vec}
    (hvec : received model.dim (answer chunk i) = .ok vec) (rest : List (Chunk × Nat)) :
    ∃ e', insertAnswered model cfg answer docId ((chunk, i) :: rest) e
        = insertAnswered model cfg answer docId rest e' ∧
      Ready (engineConfig model cfg) e' ∧
      e'.store.content = Function.update e.store.content (chunkKey docId i)
        (some ⟨vec, chunkMetadata docId chunk.text⟩) := by
  obtain ⟨hanswer, hlen⟩ := received_eq_ok_iff.mp hvec
  obtain ⟨id, e', hcall, hready, hcontent⟩ :=
    h.insert .byKey (chunkKey docId i) hlen (chunkMetadata docId chunk.text)
  refine ⟨e', ?_, hready, hcontent⟩
  rw [insertAnswered, hanswer]
  simp only [hcall]

theorem insertAnswered_cons_error (h : Ready (engineConfig model cfg) e) (docId : Bytes)
    (hsmall : ∀ vec, answer chunk i = .ok vec → vec.length < 2 ^ 32) {err : Error}
    (herr : received model.dim (answer chunk i) = .error err) (rest : List (Chunk × Nat)) :
    ∃ e', insertAnswered model cfg answer docId ((chunk, i) :: rest) e = (.error err, e') ∧
      Ready (engineConfig model cfg) e' ∧ e'.store.content = e.store.content := by
  cases hanswer : answer chunk i with
  | error err' =>
      rw [hanswer, received] at herr
      cases herr
      refine ⟨e, ?_, h, rfl⟩
      rw [insertAnswered, hanswer]
  | ok vec =>
      rw [hanswer, received] at herr
      split_ifs at herr with hlen
      cases herr
      obtain ⟨e', hcall, hready, hcontent⟩ := h.insert_rejected .byKey (chunkKey docId i)
        (hsmall vec hanswer) hlen (chunkMetadata docId chunk.text)
      refine ⟨e', ?_, hready, hcontent⟩
      rw [insertAnswered, hanswer]
      simp only [hcall]

/-- Rounds that insert, whatever comes behind them: each chunk is stored under its key, and the rest of the
store is as it was. -/
theorem insertAnswered_append (answer : Chunk → Nat → Except Error Vec)
    (h : Ready (engineConfig model cfg) e) (docId : Bytes) (items rest : List (Chunk × Nat))
    (hnodup : (items.map Prod.snd).Nodup)
    (hok : ∀ item ∈ items, ∃ vec, received model.dim (answer item.1 item.2) = .ok vec) :
    ∃ e', insertAnswered model cfg answer docId (items ++ rest) e
        = insertAnswered model cfg answer docId rest e' ∧
      Ready (engineConfig model cfg) e' ∧
      (∀ item ∈ items, ∃ vec, received model.dim (answer item.1 item.2) = .ok vec ∧
        e'.store.content (chunkKey docId item.2) = some ⟨vec, chunkMetadata docId item.1.text⟩) ∧
      ∀ x, x ∉ items.map (fun item => chunkKey docId item.2) → e'.store.content x = e.store.content x := by
  induction items generalizing e with
  | nil => exact ⟨e, rfl, h, fun _ hitem => absurd hitem List.not_mem_nil, fun _ _ => rfl⟩
  | cons item items ih =>
      obtain ⟨chunk, i⟩ := item
      obtain ⟨hout, hnodup⟩ := List.nodup_cons.mp hnodup
      obtain ⟨vec, hvec⟩ := hok (chunk, i) List.mem_cons_self
      obtain ⟨e₁, hcall, hready, hcontent⟩ := insertAnswered_cons_ok h docId hvec (items ++ rest)
      obtain ⟨e₂, hrest, hready₂, hstores, hothers⟩ := ih hready hnodup
        fun item hitem => hok item (List.mem_cons_of_mem _ hitem)
      refine ⟨e₂, hcall.trans hrest, hready₂, ?_, fun x hx => ?_⟩
      · intro item hitem
        rcases List.mem_cons.mp hitem with rfl | hitem
        · -- the numbers differ, so no later insert is at this key
          have hkey : chunkKey docId i ∉ items.map fun item => chunkKey docId item.2 := by
            intro hmem
            obtain ⟨other, hother, heq⟩ := List.mem_map.mp hmem
            exact hout (List.mem_map.mpr ⟨other, hother, (chunkKey_inj heq).2⟩)
          refine ⟨vec, hvec, ?_⟩
          rw [hothers _ hkey, hcontent, Function.update_self]
        · exact hstores item hitem
      · rw [List.map_cons, List.mem_cons, not_or] at hx
        rw [hothers x hx.2, hcontent, Function.update_of_ne hx.1]

end RagEngine

end ToyVdb
