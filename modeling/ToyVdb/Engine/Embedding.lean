import ToyVdb.Engine.Search
import ToyVdb.Engine.OnDisk
import ToyVdb.Index.Embedding

/-!
# Engines whose metrics are in the same order

An engine does nothing with scores but have its index compare them. Two engines that are configured alike but for
their metrics, whose scores are in the same order on the components they are given, are therefore in the same state
after the same calls, and their searches return the same slots.
-/

namespace ToyVdb

open Outcome

variable {S S' : Type}

/-- The same configuration, but for metrics in the same order. -/
structure EngineConfig.Embeds [LT S] [LT S'] (cfg : EngineConfig S) (cfg' : EngineConfig S') (φ : S → S')
    (P : UInt32 → Prop) : Prop where
  dim_eq : cfg.dim = cfg'.dim
  index_eq : cfg.index = cfg'.index
  hnsw_eq : cfg.hnsw = cfg'.hnsw
  metric : cfg.metric.Embeds cfg'.metric φ P

/-- The components a call brings in. -/
def Mutation.AllIn (P : UInt32 → Prop) : Mutation → Prop
  | .write w => ∀ x ∈ w.op.vec, P x
  | .compact => True

instance (P : UInt32 → Prop) [DecidablePred P] : (m : Mutation) → Decidable (m.AllIn P)
  | .write w => List.decidableBAll P w.op.vec
  | .compact => inferInstanceAs (Decidable True)

/-- The components that recovery finds. -/
def Disk.AllIn (P : UInt32 → Prop) (disk : Disk) : Prop :=
  ∀ record ∈ Engine.blobRecords disk ++ FileLogStore.replay disk.wal, ∀ op, decodeOp record = .ok op →
    ∀ x ∈ op.vec, P x

theorem VectorStore.AllIn.applied {P : UInt32 → Prop} {s s' : VectorStore} {op : Op}
    {r : Except Error (Option Nat)} (hs : s.AllIn P) (hop : ∀ x ∈ op.vec, P x) (h : s.Applied op r s') :
    s'.AllIn P := by
  have hwrite : ∀ id m?, (s.writeSlot id op.vec m?).AllIn P := by
    intro id m? x hx
    rcases List.mem_append.mp hx with hx | hx
    · rcases List.mem_append.mp hx with hx | hx
      · exact hs x (List.mem_of_mem_take hx)
      · exact hop x hx
    · exact hs x (List.mem_of_mem_drop hx)
  cases h with
  | rejected => exact hs
  | absent => exact hs
  | appended =>
      intro x hx
      rcases List.mem_append.mp hx with hx | hx
      · exact hs x hx
      · exact hop x hx
  | overwritten => exact hwrite _ _
  | revived id => exact hwrite id (some (op.metadata.getD ∅))
  | updated => exact hwrite _ _
  | tombstoned => exact hs

section Runs

variable [LT S] [DecidableLT S] [LT S'] [DecidableLT S'] {cfg : EngineConfig S} {cfg' : EngineConfig S'}
  {φ : S → S'} {P : UInt32 → Prop}

theorem Index.add_eq (h : cfg.Embeds cfg' φ P) {s : VectorStore} (hs : s.AllIn P) (index : Index) (id : Nat) :
    index.add cfg s id = index.add cfg' s id := by
  cases index with
  | flat index => rfl
  | hnsw index => rw [Index.add, Index.add, HnswIndex.add_eq h.metric hs, h.hnsw_eq]

theorem Index.search_map (h : cfg.Embeds cfg' φ P) {s : VectorStore} (hs : s.AllIn P) {query : Vec}
    (hquery : ∀ x ∈ query, P x) (index : Index) (k : Nat) (params : SearchParams) :
    (index.search cfg s query k params).map (List.map (SearchResult.map φ)) =
      index.search cfg' s query k params := by
  cases index with
  | flat index => exact index.search_map h.metric hs hquery k params
  | hnsw index => exact index.search_map h.metric hs hquery k params

omit [DecidableLT S] [DecidableLT S'] in
theorem Index.new_eq (h : cfg.Embeds cfg' φ P) : Index.new cfg = Index.new cfg' := by
  rw [Index.new, Index.new, h.index_eq]

namespace Engine

variable {e : Engine}

/-! ### One call -/

theorem store_mutate (cfg : EngineConfig S) (e : Engine) (op : Op) :
    (e.mutate cfg op).2.store = (e.store.apply op).2 := by
  unfold mutate
  cases op.type <;> dsimp only <;> cases e.store.apply op with
  | mk r s =>
      cases r with
      | error err => rfl
      | ok id =>
          cases id with
          | none => rfl
          | some id => first | rfl | (dsimp only; split_ifs <;> first | rfl | (cases e.index.add cfg s id <;> rfl))

theorem mutate_allIn (he : e.store.AllIn P) (cfg : EngineConfig S) {op : Op} (hop : ∀ x ∈ op.vec, P x) :
    (e.mutate cfg op).2.store.AllIn P := by
  rw [store_mutate]
  exact he.applied hop (VectorStore.apply_applied e.store op)

theorem mutate_eq (h : cfg.Embeds cfg' φ P) (he : e.store.AllIn P) {op : Op} (hop : ∀ x ∈ op.vec, P x) :
    e.mutate cfg op = e.mutate cfg' op := by
  have happlied := he.applied hop (VectorStore.apply_applied e.store op)
  unfold mutate
  cases happly : e.store.apply op with
  | mk r s =>
  rw [happly] at happlied
  cases op.type with
  | insert =>
      cases r with
      | error err => rfl
      | ok id =>
          cases id with
          | none => rfl
          | some id => simp only [Index.add_eq h happlied]
  | update => rfl
  | delete => rfl

theorem exec_write_eq (h : cfg.Embeds cfg' φ P) (he : e.store.AllIn P) (order : IterOrder) {w : Write}
    (hw : ∀ x ∈ w.op.vec, P x) :
    w.exec cfg order e = w.exec cfg' order e ∧ (w.exec cfg order e).2.store.AllIn P := by
  rw [exec_eq, exec_eq, mutate_eq h (e := e.logOp order w.op) he hw]
  refine ⟨rfl, ?_⟩
  split_ifs
  · exact he
  · exact mutate_allIn (e := e.logOp order w.op) he cfg' hw

/-! ### Compaction -/

theorem store_insert (s : VectorStore) (x : Bytes) (v : Vec) (m : Metadata) :
    (s.insert x v m).2 = (s.apply ⟨.insert, x, v, some m⟩).2 := by
  unfold VectorStore.insert
  cases s.apply ⟨.insert, x, v, some m⟩ with
  | mk r s' =>
      cases r with
      | error err => rfl
      | ok id => cases id <;> rfl

theorem reinsert_eq_of_embeds (h : cfg.Embeds cfg' φ P) (entries : List LiveEntry)
    (hentries : ∀ entry ∈ entries, ∀ x ∈ entry.vec, P x) (he : e.store.AllIn P) :
    reinsert cfg entries e = reinsert cfg' entries e ∧ (reinsert cfg entries e).2.store.AllIn P := by
  induction entries generalizing e with
  | nil => exact ⟨rfl, he⟩
  | cons entry entries ih =>
      obtain ⟨hentry, hentries⟩ := List.forall_mem_cons.mp hentries
      have happlied := VectorStore.apply_applied e.store ⟨.insert, entry.extId, entry.vec, some entry.metadata⟩
      have hstore := he.applied hentry happlied
      rw [← store_insert] at hstore
      unfold reinsert
      cases hinsert : e.store.insert entry.extId entry.vec entry.metadata with
      | mk r s =>
          rw [hinsert] at hstore
          cases r with
          | error err => exact ⟨rfl, hstore⟩
          | ok id =>
              simp only [Index.add_eq h hstore]
              cases e.index.add cfg' s id with
              | error err => exact ⟨rfl, hstore⟩
              | ok index => exact ih hentries (e := { e with store := s, index := index }) hstore

theorem compact_eq (h : cfg.Embeds cfg' φ P) (he : e.store.AllIn P) (order : IterOrder) :
    e.compact cfg order = e.compact cfg' order ∧ (e.compact cfg order).2.store.AllIn P := by
  have hlive : ∀ entry ∈ liveEntries e.store, ∀ x ∈ entry.vec, P x := by
    intro entry hentry
    obtain ⟨id, -, rfl⟩ := List.mem_map.mp hentry
    exact he.get id
  have hrebuild : e.rebuild cfg = e.rebuild cfg' ∧ (e.rebuild cfg).2.store.AllIn P := by
    unfold rebuild VectorStore.new
    rw [h.dim_eq, Index.new_eq h]
    by_cases hdim : cfg'.dim = 0
    · rw [if_pos hdim]
      exact ⟨rfl, he⟩
    · rw [if_neg hdim]
      exact reinsert_eq_of_embeds h _ hlive (e := { e with store := { dim := cfg'.dim }, index := Index.new cfg' })
        fun x hx => absurd hx List.not_mem_nil
  unfold compact
  rw [← hrebuild.1]
  refine ⟨rfl, ?_⟩
  have hstore := hrebuild.2
  obtain ⟨r, e', hcall⟩ : ∃ r e', e.rebuild cfg = (r, e') := ⟨_, _, rfl⟩
  rw [hcall] at hstore ⊢
  cases r <;> exact hstore

/-! ### Runs -/

theorem exec_eq_of_embeds (h : cfg.Embeds cfg' φ P) (he : e.store.AllIn P) (order : IterOrder) {m : Mutation}
    (hm : m.AllIn P) :
    m.exec cfg order e = m.exec cfg' order e ∧ (m.exec cfg order e).2.store.AllIn P := by
  cases m with
  | write w => exact exec_write_eq h he order hm
  | compact => exact compact_eq h he order

theorem run_eq (h : cfg.Embeds cfg' φ P) (he : e.store.AllIn P) (calls : List (IterOrder × Mutation))
    (hcalls : ∀ call ∈ calls, call.2.AllIn P) :
    e.run cfg calls = e.run cfg' calls ∧ (e.run cfg calls).store.AllIn P := by
  induction calls generalizing e with
  | nil => exact ⟨rfl, he⟩
  | cons call calls ih =>
      obtain ⟨hcall, hcalls⟩ := List.forall_mem_cons.mp hcalls
      obtain ⟨hexec, hstore⟩ := exec_eq_of_embeds h he call.1 hcall
      have hrest := ih hstore hcalls
      simp only [run, List.foldl_cons] at hrest ⊢
      rw [← hexec]
      exact hrest

theorem replayRecords_eq (h : cfg.Embeds cfg' φ P) (he : e.store.AllIn P) (records : List Bytes)
    (hrecords : ∀ record ∈ records, ∀ op, decodeOp record = .ok op → ∀ x ∈ op.vec, P x) :
    records.foldlM (replayRecord cfg) e = records.foldlM (replayRecord cfg') e ∧
      ∀ e', records.foldlM (replayRecord cfg) e = .ok e' → e'.store.AllIn P := by
  induction records generalizing e with
  | nil =>
      refine ⟨rfl, fun e' heq => ?_⟩
      cases heq
      exact he
  | cons record records ih =>
      obtain ⟨hrecord, hrecords⟩ := List.forall_mem_cons.mp hrecords
      simp only [List.foldlM_cons, replayRecord]
      cases hdecode : decodeOp record with
      | error err => exact ⟨rfl, fun e' heq => by cases heq⟩
      | ok op =>
          have hop := hrecord op hdecode
          have hmut := mutate_eq h he hop
          have hstore := mutate_allIn he cfg hop
          simp only [Except.bind, bind, replayOp, applyOp, ← hmut]
          cases hcall : e.mutate cfg op with
          | mk r e₁ =>
              rw [hcall] at hstore
              cases r with
              | error err => exact ⟨rfl, fun e' heq => by cases heq⟩
              | ok n => exact ih hstore hrecords

omit [LT S'] [DecidableLT S'] in
theorem recover_eq_records (e : Engine) (disk : Disk) :
    e.recover cfg disk =
      (blobRecords disk ++ FileLogStore.replay disk.wal).foldlM (replayRecord cfg) e := by
  rw [recover, blobRecords, FileBlobStore.contains, FileBlobStore.get, List.foldlM_append]
  cases disk.blobs.lookup kSnapshotKey with
  | none => rfl
  | some data => rfl

theorem create_eq (h : cfg.Embeds cfg' φ P) (disk : Option Disk) (hdisk : ∀ d ∈ disk, d.AllIn P) :
    create cfg disk = create cfg' disk ∧ ∀ e, create cfg disk = .ok e → e.store.AllIn P := by
  unfold create VectorStore.new
  rw [h.dim_eq, Index.new_eq h]
  by_cases hdim : cfg'.dim = 0
  · rw [if_pos hdim]
    exact ⟨rfl, fun e heq => by cases heq⟩
  rw [if_neg hdim]
  have hfresh : ({ dim := cfg'.dim } : VectorStore).AllIn P := fun x hx => absurd hx List.not_mem_nil
  cases disk with
  | none =>
      refine ⟨rfl, fun e heq => ?_⟩
      cases heq
      exact hfresh
  | some disk =>
      simp only [bind, Except.bind, recover_eq_records]
      exact replayRecords_eq h hfresh _ (hdisk disk rfl)

/-! ### Searches -/

theorem search_map (h : cfg.Embeds cfg' φ P) (he : e.store.AllIn P) {query : Vec} (hquery : ∀ x ∈ query, P x)
    (k ef : Nat) (filter : Option Filter) :
    (e.search cfg query k filter ef).map (List.map (SearchResult.map φ)) = e.search cfg' query k filter ef := by
  by_cases hdim : query.length = e.store.dim.toNat
  · by_cases hk : k = 0
    · rw [hk, search_zero hdim, search_zero hdim]
      rfl
    · rw [search_eq hdim hk, search_eq hdim hk]
      exact Index.search_map h he hquery e.index k _
  · rw [search, search, if_pos hdim, if_pos hdim]
    rfl

end Engine

end Runs

end ToyVdb
