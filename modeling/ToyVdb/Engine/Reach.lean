import ToyVdb.Engine.Search

/-!
# What an HNSW search can miss

A search sees what the layer-0 links reach from where its zoom ends. Deletes leave dead nodes in the graph
to keep it connected, but an insertion links a new node to live nodes only, so a node inserted while nothing
is live is linked to nothing; and pruning cuts links on one side, so a node can lose the last link that leads
to it. This module says when neither happens.
-/

namespace ToyVdb

namespace Engine

open Outcome

variable {Score : Type} {cfg : EngineConfig Score} {e e' : Engine} {order : IterOrder} {w : Write}

/-! ### Runs without compaction -/

/-- The calls of a run that only touches entries. -/
def writes (calls : List (IterOrder × Write)) : List (IterOrder × Mutation) :=
  calls.map fun call => (call.1, .write call.2)

/-- An HNSW engine whose layer-0 graph is connected. -/
def Connected (e : Engine) : Prop := ∃ h, e.index = .hnsw h ∧ h.BaseConnected

/-- None of the layer-0 lists that a call links a new node into is full, so none of them is cut. -/
def Unpruned (cfg : EngineConfig Score) (e e' : Engine) : Prop :=
  ∀ h h', e.index = .hnsw h → e'.index = .hnsw h' →
    h.BaseRoom cfg.hnsw ((h'.links? h.nodes.length 0).getD [])

/-- A call that adds a node does so to an empty graph, or while some entry is live and without a list being cut. -/
def Careful (cfg : EngineConfig Score) (e e' : Engine) (op : Op) : Prop :=
  op.type = .insert → e.store.extToInt.lookup op.extId = none →
    e.store.slotCount = 0 ∨ (1 ≤ e.store.size ∧ Unpruned cfg e e')

/-- Every call of the run is careful in the state it finds. -/
def CarefulRun [LT Score] [DecidableLT Score] (cfg : EngineConfig Score) : Engine →
    List (IterOrder × Write) → Prop
  | _, [] => True
  | e, call :: calls =>
    Careful cfg e (call.2.exec cfg call.1 e).2 call.2.op ∧ CarefulRun cfg (call.2.exec cfg call.1 e).2 calls

theorem exists_live (h : e.store.Ids) (hsize : 1 ≤ e.store.size) : ∃ id, e.store.isLive id = true := by
  rw [size_eq h] at hsize
  obtain ⟨id, hid⟩ := List.exists_mem_of_length_pos hsize
  exact ⟨id, (mem_liveSlots h).mp hid⟩

theorem isLive_of_size_eq (h : e.store.Ids) (hsize : e.store.size = e.store.slotCount) {id : Nat}
    (hid : id < e.store.slotCount) : e.store.isLive id = true := by
  rw [size_eq h, liveSlots] at hsize
  have hall := List.length_filter_eq_length_iff.mp (hsize.trans List.length_range.symm)
  exact hall id (List.mem_range.mpr hid)

/-! ### Connectivity over runs -/

theorem Connected.mutated {op : Op} {r : Except Error Nat} (hconn : e.Connected) (hwf : e.Wf cfg)
    (hM : 0 < cfg.hnsw.M) (hef : 0 < cfg.hnsw.efConstruction) (hcareful : Careful cfg e e' op)
    (hmut : Mutated cfg e op r e') : e'.Connected := by
  obtain ⟨h, hindex, hbase⟩ := hconn
  cases hmut with
  | rejected => exact ⟨h, hindex, hbase⟩
  | absent => exact ⟨h, hindex, hbase⟩
  | appended _ hop hnew hs _ hadded =>
      have hinv := hwf.index
      rw [hindex] at hinv
      obtain ⟨-, -, hlength⟩ := hinv
      obtain ⟨h', heq, hadd⟩ := hadded h hindex
      refine ⟨h', heq, ?_⟩
      by_cases hempty : h.nodes = []
      · apply hadd.baseConnected hbase hM hef
        · intro i _ ls hls
          have hlt := HnswIndex.lt_of_links? hls
          rw [hempty] at hlt
          exact absurd hlt (Nat.not_lt_zero i)
        · exact fun hne => absurd hempty hne
      · have hslots : e.store.slotCount ≠ 0 := by
          rw [← hlength]
          exact fun hzero => hempty (List.length_eq_zero_iff.mp hzero)
        obtain ⟨hsize, hunpruned⟩ := (hcareful hop hnew).resolve_left hslots
        apply hadd.baseConnected hbase hM hef (hunpruned h h' hindex heq)
        intro _
        obtain ⟨id, hlive⟩ := exists_live hwf.ids hsize
        have hid := hwf.ids.lt_of_isLive hlive
        refine ⟨id, hlength ▸ hid, ?_⟩
        rw [hs, VectorStore.isLive_appendSlot hwf.ids.live_length, if_neg hid.ne, hlive]
  | rewritten => exact ⟨h, hindex, hbase⟩
  | revived _ _ _ hsame => exact ⟨h, (hsame h hindex).trans hindex, hbase⟩
  | tombstoned =>
      refine ⟨h, ?_, hbase⟩
      change e.index.remove _ = _
      rw [hindex]
      rfl

theorem Connected.written {r : Except Error Unit} (hconn : e.Connected) (hwf : e.Wf cfg) (hM : 0 < cfg.hnsw.M)
    (hef : 0 < cfg.hnsw.efConstruction) (hcareful : Careful cfg e e' w.op)
    (hwritten : Written cfg e order w r e') :
    e'.Connected := by
  cases hwritten with
  | skipped => exact hconn
  | done _ hmut =>
      exact Connected.mutated (e := e.logOp order w.op) hconn (hwf.logOp order w.op) hM hef hcareful hmut
  | thrown _ hmut =>
      exact Connected.mutated (e := e.logOp order w.op) hconn (hwf.logOp order w.op) hM hef hcareful hmut

variable [LinearOrder Score]

theorem Connected.run (hconn : e.Connected) (hwf : e.Wf cfg) (hM : 0 < cfg.hnsw.M)
    (hef : 0 < cfg.hnsw.efConstruction)
    (calls : List (IterOrder × Write)) (hcareful : CarefulRun cfg e calls) :
    (e.run cfg (writes calls)).Connected := by
  induction calls generalizing e with
  | nil => exact hconn
  | cons call calls ih =>
      have hwritten := hwf.write call.1 call.2
      exact ih (hconn.written hwf hM hef hcareful.1 hwritten) (hwritten.wf hwf) hcareful.2

omit [LinearOrder Score] in
theorem connected_initial (hkind : cfg.index = .hnsw) (s : VectorStore) (disk : Option Disk) :
    Connected ⟨s, Index.new cfg, disk⟩ := by
  refine ⟨{}, ?_, fun i j hi => absurd hi (Nat.not_lt_zero i)⟩
  simp only [Index.new, hkind]

/-! ### A live database is not blind -/

/-- A search returns something when a live slot can be reached from wherever the zoom ends. -/
theorem Wf.search_ne_nil (hwf : e.Wf cfg) {h : HnswIndex} (hindex : e.index = .hnsw h) {query : Vec}
    (hquery : query.length = cfg.dim.toNat) {k : Nat} (hk : 1 ≤ k) (ef : Nat) (hslots : e.store.slotCount ≠ 0)
    (hreach : ∀ best, best < h.nodes.length → ∃ i, h.Reaches 0 best i ∧ e.store.isLive i = true) :
    ∃ hits, e.search cfg query k none ef = .ok hits ∧ hits ≠ [] := by
  have hinv := hwf.index
  rw [hindex] at hinv
  obtain ⟨hits, hsearch, -, -, hqueried⟩ := hwf.search_hnsw hinv.1 hquery k none ef
  obtain ⟨-, best, -, -, hbest⟩ := hqueried h hindex (by omega) hslots
  obtain ⟨i, hi, hlive⟩ := hreach best.id hbest.best_lt
  refine ⟨hits, hsearch, hbest.nonempty ⟨i, hi, ?_⟩⟩
  rw [admits_searchParams hwf.ids, eligible, hlive]
  rfl

/-- **When a live HNSW database is never blind.** After any run of inserts, updates and erases on an
empty engine, durable or not, in which every brand-new insert finds the graph empty, or finds some
entry live and links into no layer-0 list that is full; and in every state without a tombstoned slot, however it was
reached: an unfiltered search of a non-empty database returns a hit. -/
theorem live_hnsw_never_blind (cfg : EngineConfig Score) (hkind : cfg.index = .hnsw) (hM : 1 ≤ cfg.hnsw.M)
    (hef : 1 ≤ cfg.hnsw.efConstruction) (disk : Option Disk) (hblank : disk.getD {} = {}) (e₀ : Engine)
    (hcreate : create cfg disk = .ok e₀) (calls : List (IterOrder × Write))
    (hcond : CarefulRun cfg e₀ calls ∨
      (e₀.run cfg (writes calls)).store.size = (e₀.run cfg (writes calls)).store.slotCount)
    (hsize : 1 ≤ (e₀.run cfg (writes calls)).store.size) (query : Vec)
    (hquery : query.length = cfg.dim.toNat) (k : Nat)
    (hk : 1 ≤ k) (ef : Nat) :
    ∃ hits, (e₀.run cfg (writes calls)).search cfg query k none ef = .ok hits ∧ hits ≠ [] := by
  have hwf := (wf_of_create hcreate).run (writes calls)
  obtain ⟨live, hlive⟩ := exists_live hwf.ids hsize
  have hlt := hwf.ids.lt_of_isLive hlive
  have hslots : (e₀.run cfg (writes calls)).store.slotCount ≠ 0 := by omega
  obtain ⟨h, hindex, -, hlength⟩ := hwf.hnsw hkind
  apply hwf.search_ne_nil hindex hquery hk ef hslots
  intro best hbest
  cases hcond with
  | inl hcareful =>
      obtain ⟨-, rfl⟩ := create_blank hblank hcreate
      have hconn := (connected_initial hkind _ disk).run (wf_of_create hcreate) hM hef calls hcareful
      obtain ⟨h', hindex', hbase⟩ := hconn
      cases hindex.symm.trans hindex'
      exact ⟨live, hbase best live hbest (hlength ▸ hlt), hlive⟩
  | inr hfull => exact ⟨best, .refl, isLive_of_size_eq hwf.ids hfull (hlength ▸ hbest)⟩

omit [LinearOrder Score] in
theorem Wf.room (hwf : e.Wf cfg) (hsmall : e.store.slotCount ≤ 2 * cfg.hnsw.M) {h : HnswIndex}
    (hindex : e.index = .hnsw h) (nbs : List Nat) : h.BaseRoom cfg.hnsw nbs := by
  have hinv := hwf.index
  rw [hindex] at hinv
  exact hinv.2.1.toLinksInv.baseRoom (hinv.2.2 ▸ hsmall) nbs

/-- Insert two entries and erase the first. -/
def sampleWrites : List (IterOrder × Write) :=
  [.insert (ascii "a") [0] ∅, .insert (ascii "b") [0x41200000] ∅, .erase (ascii "a")].map
    fun w => (IterOrder.byKey, w)

theorem live_hnsw_never_blind_sample :
    (((⟨{ dim := 1 }, .hnsw {}, none⟩ : Engine).run (sampleConfig .hnsw ⟨1, 1, 64, fun _ => 0⟩)
      (writes sampleWrites)).store.slotCount = 2) ∧
    ∃ hits, ((⟨{ dim := 1 }, .hnsw {}, none⟩ : Engine).run (sampleConfig .hnsw ⟨1, 1, 64, fun _ => 0⟩)
      (writes sampleWrites)).search (sampleConfig .hnsw ⟨1, 1, 64, fun _ => 0⟩) [0] 1 none 0 =
      .ok hits ∧ hits ≠ [] := by
  have hcreate : create (sampleConfig .hnsw ⟨1, 1, 64, fun _ => 0⟩) none = .ok _ := rfl
  have hwf := (wf_of_create hcreate).run (writes (sampleWrites.take 1))
  refine ⟨by decide +kernel, live_hnsw_never_blind _ rfl (by decide)
    (by decide) none rfl _ rfl sampleWrites (.inl ?_)
    (by decide +kernel) [0] rfl 1 (by decide) 0⟩
  refine ⟨fun _ _ => .inl rfl, fun _ _ => .inr ⟨by decide +kernel, fun h _ hindex _ => ?_⟩,
    fun hop => (by cases hop), trivial⟩
  exact hwf.room (by decide +kernel) hindex _

/-- Insert an entry, erase it, insert another. -/
def blindWrites : List (IterOrder × Write) :=
  [.insert (ascii "a") [0] ∅, .erase (ascii "a"), .insert (ascii "b") [0x41200000] ∅].map
    fun w => (IterOrder.byKey, w)

/-- The second entry is linked to nothing and the search still starts from the first. -/
theorem live_hnsw_blind :
    ((⟨{ dim := 1 }, .hnsw {}, none⟩ : Engine).run (sampleConfig .hnsw ⟨16, 200, 64, fun _ => 0⟩)
      (writes blindWrites)).store.size = 1 ∧
    ((⟨{ dim := 1 }, .hnsw {}, none⟩ : Engine).run (sampleConfig .hnsw ⟨16, 200, 64, fun _ => 0⟩)
      (writes blindWrites)).search (sampleConfig .hnsw ⟨16, 200, 64, fun _ => 0⟩)
      [0x41200000] 1 none 0 = .ok [] :=
  ⟨by decide +kernel, by rfl⟩

end Engine

end ToyVdb
