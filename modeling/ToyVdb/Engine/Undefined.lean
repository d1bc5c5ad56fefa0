import ToyVdb.Engine.Search
import ToyVdb.Index.Undefined

/-!
# Exact search with undefined distances

A flat engine never compares scores but in a search, so what it is after any run does not depend on the scores
at all. That makes the invariants available where scores are not ordered, and leaves the search itself: it is
exact on the defined distances if and only if the slots it fills its heap with have none that is undefined.
-/

namespace ToyVdb

open Outcome

/-- The configuration with scores that say nothing. -/
def EngineConfig.scoreless {Score : Type} (cfg : EngineConfig Score) : EngineConfig Int :=
  ⟨cfg.dim, ⟨fun _ _ => 0, 0⟩, cfg.index, cfg.hnsw⟩

namespace Engine

variable {Score : Type} [LT Score] [DecidableLT Score] {cfg : EngineConfig Score} {e : Engine}

/-! ### Flat engines without scores -/

theorem mutate_scoreless (hflat : ∃ f, e.index = .flat f) (op : Op) :
    e.mutate cfg op = e.mutate cfg.scoreless op := by
  obtain ⟨f, hindex⟩ := hflat
  simp only [mutate, hindex, Index.add]

theorem reinsert_scoreless (entries : List LiveEntry) (hflat : ∃ f, e.index = .flat f) :
    reinsert cfg entries e = reinsert cfg.scoreless entries e := by
  induction entries generalizing e with
  | nil => rw [reinsert, reinsert]
  | cons entry entries ih =>
      obtain ⟨f, hindex⟩ := hflat
      rw [reinsert, reinsert, hindex]
      cases hinsert : e.store.insert entry.extId entry.vec entry.metadata with
      | mk r s =>
          cases r with
          | error err => rfl
          | ok id => exact ih ⟨_, rfl⟩

variable (hkind : cfg.index = .flat)

include hkind

theorem compact_scoreless (e : Engine) (order : IterOrder) :
    e.compact cfg order = e.compact cfg.scoreless order := by
  have hnew : Index.new cfg = .flat {} := by rw [Index.new, hkind]
  have hrebuild : e.rebuild cfg = e.rebuild cfg.scoreless := by
    unfold rebuild
    cases hs : VectorStore.new cfg.dim with
    | error err => rw [show VectorStore.new cfg.scoreless.dim = .error err from hs]
    | ok s =>
        rw [show VectorStore.new cfg.scoreless.dim = .ok s from hs]
        exact reinsert_scoreless (liveEntries e.store) ⟨{}, hnew⟩
  rw [compact, compact, hrebuild]

theorem exec_scoreless (hflat : ∃ f, e.index = .flat f) (order : IterOrder) (m : Mutation) :
    m.exec cfg order e = m.exec cfg.scoreless order e := by
  have hmutate : ∀ op, (e.logOp order op).mutate cfg op = (e.logOp order op).mutate cfg.scoreless op :=
    fun op => mutate_scoreless (e := e.logOp order op) hflat op
  cases m with
  | compact => exact compact_scoreless hkind e order
  | write w =>
      cases w with
      | insert extId vec m => simp only [Mutation.exec, Write.exec, insert, applyOp, hmutate]
      | update extId vec m? => simp only [Mutation.exec, Write.exec, update, applyOp, hmutate]
      | erase extId => simp only [Mutation.exec, Write.exec, erase, applyOp, hmutate]

theorem run_scoreless (hwf : e.Wf cfg.scoreless) (calls : List (IterOrder × Mutation)) :
    e.run cfg calls = e.run cfg.scoreless calls := by
  induction calls generalizing e with
  | nil => rw [run, run, List.foldl_nil, List.foldl_nil]
  | cons call calls ih =>
      have hexec := exec_scoreless hkind ((hwf.flat hkind).imp fun _ h => h.1) call.1 call.2
      rw [run, run, List.foldl_cons, List.foldl_cons, hexec]
      exact ih (hwf.exec call.1 call.2)

theorem foldlM_scoreless (records : List Bytes) (hwf : e.Wf cfg.scoreless) :
    records.foldlM (replayRecord cfg) e = records.foldlM (replayRecord cfg.scoreless) e := by
  refine foldlM_congr (fun _ _ _ hwf hreplay => (Wf.replayRecord hwf hreplay).1)
    (fun e record hwf => ?_) records e hwf
  rw [replayRecord, replayRecord]
  congr 1
  funext op
  rw [replayOp, replayOp, applyOp, applyOp, mutate_scoreless ((hwf.flat hkind).imp fun _ h => h.1) op]

theorem recover_scoreless (disk : Disk) (hwf : e.Wf cfg.scoreless) :
    e.recover cfg disk = e.recover cfg.scoreless disk := by
  rw [recover, recover]
  by_cases hsnapshot : disk.blobs.contains kSnapshotKey = true
  · rw [if_pos hsnapshot, if_pos hsnapshot]
    cases disk.blobs.get kSnapshotKey with
    | error err => rw [error_bind, error_bind]
    | ok data =>
        change (e.replayBlob cfg data >>= _) = (e.replayBlob cfg.scoreless data >>= _)
        rw [replayBlob, replayBlob, foldlM_scoreless hkind _ hwf]
        cases hblob : (snapshotRecords data).foldlM (replayRecord cfg.scoreless) e with
        | error err => rw [error_bind, error_bind]
        | ok e₁ =>
            have hwf₁ :=
              invariant_foldlM (fun _ _ _ hwf hreplay => (Wf.replayRecord hwf hreplay).1) _ e e₁ hwf hblob
            exact foldlM_scoreless hkind _ hwf₁
  · rw [if_neg hsnapshot, if_neg hsnapshot]
    exact foldlM_scoreless hkind _ hwf

theorem create_scoreless (disk : Option Disk) : create cfg disk = create cfg.scoreless disk := by
  rw [create, create, VectorStore.new, VectorStore.new]
  by_cases hdim : cfg.dim = 0
  · rw [if_pos hdim, if_pos (show cfg.scoreless.dim = 0 from hdim), error_bind, error_bind]
  · have hdim' : cfg.scoreless.dim ≠ 0 := hdim
    rw [if_neg hdim, if_neg hdim']
    cases disk with
    | none => rfl
    | some disk => exact recover_scoreless hkind disk (wf_initial hdim' (some disk))

omit hkind

/-! ### Search over any heap -/

/-- The search with any heap for the scan of a flat index. -/
def searchWith (impl : Heap.Impl (SearchResult Score) FlatIndex.worse) (cfg : EngineConfig Score) (e : Engine)
    (query : Vec) (k : Nat) (filter : Option Filter) (ef : Nat) : Except Error (List (SearchResult Score)) :=
  if query.length ≠ e.store.dim.toNat then
    .error (.invalidArgument "Engine::search: query dimensionality mismatch")
  else if k = 0 then .ok []
  else match e.index with
    | .flat index => index.searchWith impl cfg.metric e.store query k (searchParams e.store filter ef)
    | .hnsw index => index.search cfg.metric e.store query k (searchParams e.store filter ef)

theorem searchWith_sorted (query : Vec) (k : Nat) (filter : Option Filter) (ef : Nat) :
    e.searchWith (Heap.Impl.sorted FlatIndex.worse) cfg query k filter ef =
      e.search cfg query k filter ef := by
  rw [searchWith]
  by_cases hquery : query.length = e.store.dim.toNat
  · rw [if_neg (not_not.mpr hquery)]
    by_cases hk : k = 0
    · rw [if_pos hk, hk, search_zero hquery]
    · rw [if_neg hk, search_eq hquery hk]
      cases e.index with
      | flat index => exact FlatIndex.searchWith_sorted index query k _
      | hnsw index => rfl
  · rw [if_pos hquery, search, if_pos hquery]

/-- The ids a flat index scans, in this order. -/
def scanned : Index → List Nat
  | .flat index => index.ids
  | .hnsw _ => []

variable {κ : Type} [LinearOrder κ]

/-- The eligible slots whose distance to the query is defined. -/
def definedCandidates (metric : Metric (WithNaN κ)) (s : VectorStore) (query : Vec)
    (filter : Option Filter) : List Nat :=
  (candidates s (eligible s filter)).filter fun id => metric.distance query (s.get id) ≠ .nan

/-- None of the first k eligible slots of the scan has an undefined distance. -/
def FirstDefined (metric : Metric (WithNaN κ)) (e : Engine) (query : Vec) (filter : Option Filter)
    (k : Nat) : Prop :=
  ∀ id ∈ ((scanned e.index).filter (eligible e.store filter)).take k,
    metric.distance query (e.store.get id) ≠ .nan

theorem length_filter_offered {s : VectorStore} (hids : s.Ids) {ids : List Nat} (hnodup : ids.Nodup)
    (hlive : ∀ id, id ∈ ids ↔ s.isLive id = true) (metric : Metric (WithNaN κ)) (query : Vec)
    (filter : Option Filter) :
    ((FlatIndex.offered metric s query (eligible s filter) ids).filter (FlatIndex.Defined ·)).length =
      (definedCandidates metric s query filter).length := by
  have hperm : (ids.filter (eligible s filter)).Perm (candidates s (eligible s filter)) := by
    rw [List.perm_ext_iff_of_nodup (hnodup.filter _) (nodup_candidates s _)]
    intro id
    rw [mem_candidates fun id hid => eligible_lt hids hid, List.mem_filter, hlive]
    exact ⟨fun h => h.2, fun h => ⟨(Bool.and_eq_true_iff.mp h).1, h⟩⟩
  rw [FlatIndex.offered, List.filter_map, List.length_map]
  exact (hperm.filter _).length_eq

/-- **One undefined distance can corrupt exact search.** In every state a flat engine reaches, for a query of
the right dimension with at least k eligible slots at a defined distance, and whatever heap the scan uses: the
hits are the k closest of these, with their distances and closest first, if and only if none of the first k
eligible slots that the index scans is at an undefined distance. -/
theorem undefined_distances_harmless_iff (impl : Heap.Impl (SearchResult (WithNaN κ)) FlatIndex.worse)
    (cfg : EngineConfig (WithNaN κ)) (hkind : cfg.index = .flat) (disk : Option Disk) (e₀ : Engine)
    (hcreate : create cfg disk = .ok e₀) (calls : List (IterOrder × Mutation)) (query : Vec)
    (hquery : query.length = cfg.dim.toNat) (k ef : Nat) (hk : 1 ≤ k) (filter : Option Filter)
    (hmany : k ≤ (definedCandidates cfg.metric (e₀.run cfg calls).store query filter).length) :
    (∃ hits, (e₀.run cfg calls).searchWith impl cfg query k filter ef = .ok hits ∧
        FlatIndex.ExactDefined cfg.metric (e₀.run cfg calls).store query
          (eligible (e₀.run cfg calls).store filter) k hits) ↔
      FirstDefined cfg.metric (e₀.run cfg calls) query filter k := by
  rw [create_scoreless hkind] at hcreate
  have hwf₀ := wf_of_create hcreate
  have hwf := hwf₀.run calls
  rw [← run_scoreless hkind hwf₀] at hwf
  generalize e₀.run cfg calls = e at *
  obtain ⟨f, hindex, hnodup, hlive⟩ := hwf.flat hkind
  have hquery' : query.length = e.store.dim.toNat := by rw [hquery, hwf.dim_eq]; rfl
  have hk' : k ≠ 0 := Nat.one_le_iff_ne_zero.mp hk
  have hallow := admits_searchParams hwf.ids filter ef
  rw [← length_filter_offered hwf.ids hnodup hlive, ← hallow] at hmany
  have hiff := FlatIndex.searchWith_exact_iff impl f (searchParams e.store filter ef) hk' hnodup
    (fun id hid => (hlive id).mpr (Bool.and_eq_true_iff.mp hid).1)
    (fun id hid => hwf.ids.lt_of_isLive hid) hmany
  rw [searchWith, if_neg (not_not.mpr hquery'), if_neg hk', hindex, ← hallow]
  refine hiff.trans ?_
  rw [FirstDefined, hindex, FlatIndex.offered, ← List.map_take, List.forall_mem_map, hallow]
  rfl

/-- One-dimensional vectors, at squared distance. -/
def nanConfig : EngineConfig (WithNaN Int) := ⟨1, l2NaN, .flat, ⟨1, 1, 64, fun _ => 0⟩⟩

/-- Two entries, at the given points. -/
def nanCalls (a b : UInt32) : List (IterOrder × Mutation) :=
  [(.byKey, .write (.insert (ascii "a") [a] ∅)), (.byKey, .write (.insert (ascii "b") [b] ∅))]

/-- A blank engine after these calls. -/
def nanEngine (a b : UInt32) : Engine :=
  (⟨{ dim := 1 }, .flat {}, none⟩ : Engine).run nanConfig (nanCalls a b)

/-- A NaN that comes second is passed by. -/
theorem undefined_distances_harmless_sample :
    ∃ hits, (nanEngine 0 0x7FC00000).searchWith (Heap.Impl.sorted FlatIndex.worse) nanConfig
      [0] 1 none 0 = .ok hits ∧
      FlatIndex.ExactDefined nanConfig.metric (nanEngine 0 0x7FC00000).store [0]
        (eligible (nanEngine 0 0x7FC00000).store none) 1 hits := by
  refine (undefined_distances_harmless_iff (Heap.Impl.sorted FlatIndex.worse) nanConfig rfl none _ rfl
    (nanCalls 0 0x7FC00000) [0] rfl 1 0 (Nat.le_refl 1) none ?_).mpr ?_
  · decide +kernel
  · unfold FirstDefined
    decide +kernel

/-- A NaN that comes first is the only hit, and the entry at distance 0 is not returned. -/
theorem undefined_distance_hides_defined :
    (definedCandidates nanConfig.metric (nanEngine 0x7FC00000 0).store [0] none).length = 1 ∧
      (nanEngine 0x7FC00000 0).search nanConfig [0] 1 none 0 = .ok [⟨0, .nan⟩] ∧
      ¬ ∃ hits, (nanEngine 0x7FC00000 0).search nanConfig [0] 1 none 0 = .ok hits ∧
        FlatIndex.ExactDefined nanConfig.metric (nanEngine 0x7FC00000 0).store [0]
          (eligible (nanEngine 0x7FC00000 0).store none) 1 hits := by
  have hsearch : (nanEngine 0x7FC00000 0).search nanConfig [0] 1 none 0 = .ok [⟨0, .nan⟩] := by decide +kernel
  refine ⟨by decide +kernel, hsearch, fun ⟨hits, hhits, hexact⟩ => ?_⟩
  cases hsearch.symm.trans hhits
  exact hexact.defined ⟨0, .nan⟩ List.mem_cons_self rfl

end Engine

end ToyVdb
