import ToyVdb.Engine.Model
import ToyVdb.Store.Invariant
import ToyVdb.Hnsw.Connectivity

/-!
# The engine under mutations

Store and index stay in step. The flat index lists every live slot once; the HNSW graph has a node for
every slot, live or not, and satisfies its invariant. `Mutated` lists what a mutation can do, path by path,
and in a state that satisfies the invariant nothing else can happen: no access outside an array, no
exhausted round count, no missing id.

Scores are in a linear order here and in the modules that build on this one, so no distance is undefined.
What a flat engine does where some are is in `Engine.Undefined`.
-/

namespace ToyVdb

open Outcome

variable {Score : Type} {cfg : EngineConfig Score}

/-! ### The index follows the store -/

/-- What an index holds for a store. -/
def IndexInv (cfg : EngineConfig Score) (s : VectorStore) : Index → Prop
  | .flat index => cfg.index = .flat ∧ index.ids.Nodup ∧ ∀ id, id ∈ index.ids ↔ s.isLive id = true
  | .hnsw index => cfg.index = .hnsw ∧ HnswIndex.GraphInv cfg.hnsw index ∧ index.nodes.length = s.slotCount

theorem graphInv_empty (params : HnswParams) : HnswIndex.GraphInv params {} where
  links_length node h := absurd h List.not_mem_nil
  edge_ne l i j h := by
    obtain ⟨ls, hls, -⟩ := h
    cases hls
  edge_level l i j h := by
    obtain ⟨ls, hls, -⟩ := h
    cases hls
  nodup i l ls hls := by cases hls
  length_le i l ls hls := by cases hls
  built_eq := rfl
  entry := ⟨rfl, rfl⟩

theorem indexInv_new (cfg : EngineConfig Score) (dim : UInt32) :
    IndexInv cfg { dim := dim } (Index.new cfg) := by
  unfold Index.new
  cases hkind : cfg.index with
  | flat => exact ⟨hkind, List.nodup_nil, fun id => by simp [VectorStore.isLive]⟩
  | hnsw => exact ⟨hkind, graphInv_empty cfg.hnsw, rfl⟩

section IndexInv

variable {s s' : VectorStore} {index : Index}

theorem IndexInv.congr (h : IndexInv cfg s index) (hlive : ∀ id, s'.isLive id = s.isLive id)
    (hcount : s'.slotCount = s.slotCount) : IndexInv cfg s' index := by
  cases index with
  | flat index => exact ⟨h.1, h.2.1, fun id => hlive id ▸ h.2.2 id⟩
  | hnsw index => exact ⟨h.1, h.2.1, h.2.2.trans hcount.symm⟩

/-- What adding a new slot does to the graph. -/
def IndexAdded (cfg : EngineConfig Score) (s' : VectorStore) (index index' : Index) : Prop :=
  ∀ h, index = .hnsw h → ∃ h', index' = .hnsw h' ∧ HnswIndex.Added cfg.hnsw s' h h'

theorem flat_add_inv {f : FlatIndex} {id : Nat} (h : IndexInv cfg s (.flat f)) (hid : s.isLive id = false)
    (hlive : ∀ j, s'.isLive j = if j = id then true else s.isLive j) :
    IndexInv cfg s' (.flat (f.add id)) := by
  have hout : id ∉ f.ids := by
    rw [h.2.2, hid]
    decide
  refine ⟨h.1, ?_, fun j => ?_⟩
  · change (f.ids ++ [id]).Nodup
    rw [List.nodup_append]
    refine ⟨h.2.1, List.nodup_singleton id, fun x hx y hy => ?_⟩
    rw [List.mem_singleton] at hy
    subst hy
    exact fun heq => hout (heq ▸ hx)
  · change j ∈ f.ids ++ [id] ↔ _
    rw [List.mem_append, List.mem_singleton, hlive, h.2.2]
    by_cases hj : j = id
    · simp [hj]
    · simp [hj]

theorem IndexInv.append [LinearOrder Score] (h : IndexInv cfg s index) (hnew : s.isLive s.slotCount = false)
    (hcount : s'.slotCount = s.slotCount + 1)
    (hlive : ∀ j, s'.isLive j = if j = s.slotCount then true else s.isLive j) :
    Yields (index.add cfg s' s.slotCount) fun index' => IndexInv cfg s' index' ∧
      IndexAdded cfg s' index index' := by
  cases index with
  | flat f => exact .ok ⟨flat_add_inv h hnew hlive, fun h' heq => by cases heq⟩
  | hnsw g =>
      obtain ⟨hkind, hgraph, hlen⟩ := h
      have hslots : g.nodes.length < s'.slotCount := by omega
      have hyields : Yields (g.add cfg.metric s' cfg.hnsw g.nodes.length) _ := hgraph.add_new_yields hslots
      obtain ⟨g', hg', hadded⟩ := hyields
      rw [Index.add, ← hlen, hg']
      refine .ok ⟨⟨hkind, hadded.graph, ?_⟩, fun h' heq => ?_⟩
      · rw [hadded.length_eq, hlen, hcount]
      · cases heq
        exact ⟨g', rfl, hadded⟩

theorem IndexInv.revive [LinearOrder Score] (h : IndexInv cfg s index) {id : Nat}
    (hid : id < s.slotCount) (hdead : s.isLive id = false)
    (hcount : s'.slotCount = s.slotCount) (hlive : ∀ j, s'.isLive j = if j = id then true else s.isLive j) :
    Yields (index.add cfg s' id) fun index' => IndexInv cfg s' index' ∧ ∀ h, index = .hnsw h →
      index' = index := by
  cases index with
  | flat f => exact .ok ⟨flat_add_inv h hdead hlive, fun h' heq => by cases heq⟩
  | hnsw g =>
      obtain ⟨hkind, hgraph, hlen⟩ := h
      rw [Index.add, hgraph.add_built (by omega)]
      exact .ok ⟨⟨hkind, hgraph, hlen.trans hcount.symm⟩, fun _ _ => rfl⟩

theorem IndexInv.remove (h : IndexInv cfg s index) {id : Nat} (hcount : s'.slotCount = s.slotCount)
    (hlive : ∀ j, s'.isLive j = if j = id then false else s.isLive j) :
    IndexInv cfg s' (index.remove id) := by
  cases index with
  | flat f =>
      refine ⟨h.1, h.2.1.filter _, fun j => ?_⟩
      change j ∈ f.ids.filter (· ≠ id) ↔ _
      rw [List.mem_filter, hlive, h.2.2]
      by_cases hj : j = id
      · simp [hj]
      · simp [hj]
  | hnsw g => exact ⟨h.1, h.2.1, h.2.2.trans hcount.symm⟩

end IndexInv

namespace Engine

variable {e e' : Engine} {op : Op} {r : Except Error Nat}

/-- Store and index are well formed and in step. -/
structure Wf (cfg : EngineConfig Score) (e : Engine) : Prop where
  ids : e.store.Ids
  dim_ne : cfg.dim ≠ 0
  dim_eq : e.store.dim = cfg.dim
  index : IndexInv cfg e.store e.index

theorem wf_initial (hdim : cfg.dim ≠ 0) (disk : Option Disk) :
    Wf cfg ⟨{ dim := cfg.dim }, Index.new cfg, disk⟩ where
  dim_ne := hdim
  ids := VectorStore.ids_empty cfg.dim
  dim_eq := rfl
  index := indexInv_new cfg cfg.dim

theorem Wf.flat (hwf : e.Wf cfg) (hkind : cfg.index = .flat) :
    ∃ f, e.index = .flat f ∧ f.ids.Nodup ∧ ∀ id, id ∈ f.ids ↔ e.store.isLive id = true := by
  have hinv := hwf.index
  cases hindex : e.index with
  | flat f =>
      rw [hindex] at hinv
      exact ⟨f, rfl, hinv.2⟩
  | hnsw h =>
      rw [hindex] at hinv
      exact absurd (hkind.symm.trans hinv.1) (by decide)

theorem Wf.hnsw (hwf : e.Wf cfg) (hkind : cfg.index = .hnsw) :
    ∃ h, e.index = .hnsw h ∧ HnswIndex.GraphInv cfg.hnsw h ∧ h.nodes.length = e.store.slotCount := by
  have hinv := hwf.index
  cases hindex : e.index with
  | flat f =>
      rw [hindex] at hinv
      exact absurd (hkind.symm.trans hinv.1) (by decide)
  | hnsw h =>
      rw [hindex] at hinv
      exact ⟨h, rfl, hinv.2⟩

theorem Wf.add_appended [LinearOrder Score] (hwf : e.Wf cfg) (x : Bytes) (vec : Vec) (m : Metadata) :
    Yields (e.index.add cfg (e.store.appendSlot x vec m) e.store.slotCount) fun index =>
      IndexInv cfg (e.store.appendSlot x vec m) index ∧
        IndexAdded cfg (e.store.appendSlot x vec m) e.index index :=
  hwf.index.append hwf.ids.isLive_slotCount (VectorStore.slotCount_appendSlot x vec m)
    (VectorStore.isLive_appendSlot hwf.ids.live_length x vec m)

/-! ### What a mutation does -/

inductive Mutated (cfg : EngineConfig Score) (e : Engine) (op : Op) : Except Error Nat → Engine → Prop
  | rejected {err : Error} (happlied : e.store.Applied op (.error err) e.store) :
      Mutated cfg e op (.error err) e
  | absent (happlied : e.store.Applied op (.ok none) e.store) : Mutated cfg e op (.ok kInvalidId) e
  | appended {s : VectorStore} {index : Index}
      (happlied : e.store.Applied op (.ok (some e.store.slotCount)) s)
      (hop : op.type = .insert) (hnew : e.store.extToInt.lookup op.extId = none)
      (hs : s = e.store.appendSlot op.extId op.vec (op.metadata.getD ∅))
      (hindex : IndexInv cfg s index) (hadded : IndexAdded cfg s e.index index) :
      Mutated cfg e op (.ok e.store.slotCount) { e with store := s, index := index }
  | rewritten {s : VectorStore} {id n : Nat} (happlied : e.store.Applied op (.ok (some id)) s)
      (hlive : ∀ j, s.isLive j = e.store.isLive j) (hcount : s.slotCount = e.store.slotCount) :
      Mutated cfg e op (.ok n) { e with store := s }
  | revived {s : VectorStore} {id : Nat} {index : Index} (happlied : e.store.Applied op (.ok (some id)) s)
      (hcount : s.slotCount = e.store.slotCount) (hindex : IndexInv cfg s index)
      (hsame : ∀ h, e.index = .hnsw h → index = e.index) :
      Mutated cfg e op (.ok id) { e with store := s, index := index }
  | tombstoned {s : VectorStore} {id : Nat} (happlied : e.store.Applied op (.ok (some id)) s)
      (hcount : s.slotCount = e.store.slotCount)
      (hlive : ∀ j, s.isLive j = if j = id then false else e.store.isLive j) :
      Mutated cfg e op (.ok kInvalidId) { e with store := s, index := e.index.remove id }

theorem Wf.mutate [LinearOrder Score] (hwf : e.Wf cfg) (op : Op) :
    Mutated cfg e op (e.mutate cfg op).1 (e.mutate cfg op).2 := by
  have happlied := VectorStore.apply_applied e.store op
  have hids := hwf.ids
  unfold Engine.mutate
  cases happly : e.store.apply op with
  | mk r s =>
  rw [happly] at happlied
  dsimp only at happlied
  have hkeep := happlied
  cases happlied with
  | rejected hop =>
      rcases hop with hop | hop
      · simp only [hop]
        exact .rejected hkeep
      · simp only [hop.1]
        exact .rejected hkeep
  | absent hop =>
      cases htype : op.type with
      | insert => exact absurd htype hop
      | update => exact .absent hkeep
      | delete => exact .absent hkeep
  | appended hop _ hid =>
      have hnone : e.store.resolve op.extId = none := by
        rw [VectorStore.resolve_eq_none_iff]
        intro id hid'
        rw [hid] at hid'
        cases hid'
      obtain ⟨index, hadd, hindex, hadded⟩ := hwf.add_appended op.extId op.vec (op.metadata.getD ∅)
      simp only [hop, hnone, Option.isNone_none, if_true, hadd]
      exact .appended hkeep hop hid rfl hindex hadded
  | overwritten id hop _ hid hlive =>
      have hsome : e.store.resolve op.extId = some id := VectorStore.resolve_eq_some_iff.mpr ⟨hid, hlive⟩
      simp only [hop, hsome, Option.isNone_some, Bool.false_eq_true, if_false]
      exact .rewritten hkeep (fun _ => rfl) rfl
  | revived id hop _ hid hlive =>
      have hnone : e.store.resolve op.extId = none := by
        rw [VectorStore.resolve_eq_none_iff]
        intro id' hid'
        rw [← Option.some.inj (hid.symm.trans hid'), hlive]
      have hlt := hids.lt_of_lookup hid
      have hrevived : ∀ j, ((e.store.writeSlot id op.vec
        (some (op.metadata.getD ∅))).reviveSlot id).isLive j =
          if j = id then true else e.store.isLive j :=
        VectorStore.isLive_reviveSlot (s := e.store.writeSlot id op.vec (some (op.metadata.getD ∅)))
          (hids.live_length ▸ hlt)
      have hcount : ((e.store.writeSlot id op.vec (some (op.metadata.getD ∅))).reviveSlot id).slotCount =
          e.store.slotCount := rfl
      obtain ⟨index, hadd, hindex, hsame⟩ := hwf.index.revive hlt hlive hcount hrevived
      simp only [hop, hnone, Option.isNone_none, if_true, hadd]
      exact .revived hkeep rfl hindex hsame
  | updated id hop =>
      simp only [hop]
      exact .rewritten hkeep (fun _ => rfl) rfl
  | tombstoned id hop =>
      simp only [hop]
      exact .tombstoned hkeep rfl fun j => VectorStore.isLive_tombstoneSlot j

/-- What a mutation does to the store is what `apply` does, and it does nothing to the disk. -/
theorem Mutated.applied (h : Mutated cfg e op r e') : (∃ r₀, e.store.Applied op r₀ e'.store) ∧
    e'.disk = e.disk := by
  cases h with
  | rejected happlied => exact ⟨⟨_, happlied⟩, rfl⟩
  | absent happlied => exact ⟨⟨_, happlied⟩, rfl⟩
  | appended happlied => exact ⟨⟨_, happlied⟩, rfl⟩
  | rewritten happlied => exact ⟨⟨_, happlied⟩, rfl⟩
  | revived happlied => exact ⟨⟨_, happlied⟩, rfl⟩
  | tombstoned happlied => exact ⟨⟨_, happlied⟩, rfl⟩

theorem Mutated.wf (h : Mutated cfg e op r e') (hwf : e.Wf cfg) : e'.Wf cfg := by
  obtain ⟨⟨r₀, happlied⟩, -⟩ := h.applied
  have hdim : e'.store.dim = cfg.dim := happlied.dim_eq.trans hwf.dim_eq
  refine ⟨hwf.ids.applied happlied, hwf.dim_ne, hdim, ?_⟩
  cases h with
  | rejected => exact hwf.index
  | absent => exact hwf.index
  | appended _ _ _ _ hindex => exact hindex
  | rewritten _ hlive hcount => exact hwf.index.congr hlive hcount
  | revived _ _ hindex => exact hindex
  | tombstoned _ hcount hlive => exact hwf.index.remove hcount hlive

end Engine

end ToyVdb
