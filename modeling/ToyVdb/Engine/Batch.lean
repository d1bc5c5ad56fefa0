import ToyVdb.Engine.Search
import ToyVdb.Lib.Workers

/-!
# Batches of queries

`search_batch` checks all queries, resolves the filter once, and hands contiguous ranges of the
queries to worker threads, each of which fills the result slots of its range. The engine is not
written to meanwhile, so a worker's turn is one query: what it computes depends on nothing that
another worker does.

Scores are linearly ordered, so no query has an undefined distance to an entry.
-/

namespace ToyVdb

namespace Engine

/-! ### The batch -/

/-- How many threads are used; with `num_threads == 0` it is what the hardware has. -/
def batchThreads (numThreads hardwareConcurrency : UInt32) (qn : Nat) : Nat :=
  let threads := if numThreads = 0 then max 1 hardwareConcurrency.toNat else numThreads.toNat
  min threads qn

/-- The loop that spawns the workers, with `n` rounds to go at round `t`. -/
def spawnFrom (qn chunk : Nat) : Nat → Nat → List (Nat × Nat)
  | 0, _ => []
  | n + 1, t =>
    let lo := t * chunk
    if lo ≥ qn then [] else (lo, min (lo + chunk) qn) :: spawnFrom qn chunk n (t + 1)

/-- The ranges `[lo, hi)` the workers are given. -/
def spawned (qn tcount : Nat) : List (Nat × Nat) := spawnFrom qn ((qn + tcount - 1) / tcount) tcount 0

/-- What a worker does with its range, slot by slot. -/
def runRange (range : Nat × Nat) : List Nat := List.range' range.1 (range.2 - range.1)

/-- The order in which the workers fill the result slots. -/
def slotOrder (schedule : Nat → Nat) (qn tcount : Nat) : List Nat :=
  Workers.order schedule ((spawned qn tcount).map runRange)

section Exec

variable {Score : Type} [LT Score] [DecidableLT Score] (cfg : EngineConfig Score)

def batchParams (e : Engine) (filter : Option Filter) (ef : Nat) : SearchParams :=
  let params : SearchParams := if ef > 0 then { ef := ef } else {}
  match filter with
  | none => params
  | some filter => { params with allowed := some (allowedSet e.store filter) }

/-- What belongs into a result slot. -/
def searchSlot (e : Engine) (queries : List Vec) (k : Nat) (params : SearchParams) (i : Nat) :
    Except Error (List (SearchResult Score)) :=
  match queries[i]? with
  | none => .error .outOfRange
  | some query => e.index.search cfg e.store query k params

def searchBatch (e : Engine) (queries : List Vec) (k : Nat) (filter : Option Filter) (ef : Nat)
    (numThreads hardwareConcurrency : UInt32) (schedule : Nat → Nat) :
    Except Error (List (List (SearchResult Score))) :=
  let qn := queries.length
  let results := List.replicate qn []
  if qn = 0 then .ok results
  else if queries.any fun query => query.length ≠ e.store.dim.toNat then
    .error (.invalidArgument "Engine::search_batch: query dimensionality mismatch")
  else if k = 0 then .ok results
  else
    let job := Workers.fill (e.searchSlot cfg queries k (e.batchParams filter ef))
    let tcount := batchThreads numThreads hardwareConcurrency qn
    -- one thread is the calling one
    if tcount ≤ 1 then (runRange (0, qn)).foldlM job results
    else (slotOrder schedule qn tcount).foldlM job results

end Exec

/-! ### The ranges -/

section Ranges

variable {qn tcount : Nat}

/-- The ranges follow one another without a gap, up to the last query or the last thread. -/
theorem flatMap_spawnFrom (qn chunk n t : Nat) :
    (spawnFrom qn chunk n t).flatMap runRange = List.range' (t * chunk)
      (min qn ((t + n) * chunk) - t * chunk) := by
  induction n generalizing t with
  | zero =>
      have hnone : min qn ((t + 0) * chunk) - t * chunk = 0 := by
        rw [Nat.add_zero]
        omega
      rw [hnone]
      rfl
  | succ n ih =>
      have hnext : (t + 1) * chunk = t * chunk + chunk := Nat.succ_mul t chunk
      have hlast : (t + 1) * chunk ≤ (t + (n + 1)) * chunk := Nat.mul_le_mul_right chunk (by omega)
      rw [spawnFrom]
      by_cases hdone : t * chunk ≥ qn
      · rw [if_pos hdone, show min qn ((t + (n + 1)) * chunk) - t * chunk = 0 by omega]
        rfl
      · rw [if_neg hdone, List.flatMap_cons, ih (t + 1), show t + 1 + n = t + (n + 1) by omega]
        rw [hnext] at hlast ⊢
        rw [runRange]
        generalize (t + (n + 1)) * chunk = last at hlast ⊢
        by_cases hshort : t * chunk + chunk ≤ qn
        · rw [Nat.min_eq_left hshort, Nat.add_sub_cancel_left, List.range'_append_1]
          congr 1
          omega
        · -- the last range is cut at the number of queries
          rw [Nat.min_eq_right (by omega), Nat.min_eq_left (by omega),
            show qn - (t * chunk + chunk) = 0 by omega]
          exact List.append_nil _

theorem le_mul_chunk (htcount : 0 < tcount) : qn ≤ tcount * ((qn + tcount - 1) / tcount) := by
  have hmod := Nat.mod_lt (qn + tcount - 1) htcount
  have hdiv := Nat.div_add_mod (qn + tcount - 1) tcount
  omega

theorem flatMap_spawned (htcount : qn ≠ 0 → 0 < tcount) :
    (spawned qn tcount).flatMap runRange = List.range qn := by
  rw [spawned, flatMap_spawnFrom, Nat.zero_mul, Nat.zero_add, Nat.sub_zero, List.range_eq_range']
  by_cases hqn : qn = 0
  · rw [hqn, Nat.zero_min]
  · rw [Nat.min_eq_left (le_mul_chunk (htcount hqn))]

theorem batchThreads_pos (numThreads hardwareConcurrency : UInt32) (hqn : qn ≠ 0) :
    0 < batchThreads numThreads hardwareConcurrency qn := by
  refine Nat.lt_min.mpr ⟨?_, Nat.pos_of_ne_zero hqn⟩
  by_cases hzero : numThreads = 0
  · rw [if_pos hzero]
    exact Nat.le_max_left 1 _
  · rw [if_neg hzero]
    apply Nat.pos_of_ne_zero
    exact fun heq => hzero (UInt32.toNat_inj.mp heq)

theorem runRange_zero (qn : Nat) : runRange (0, qn) = List.range qn := List.range_eq_range'.symm

theorem mem_runRange {range : Nat × Nat} {i : Nat} : i ∈ runRange range ↔ range.1 ≤ i ∧ i < range.2 := by
  rw [runRange, List.mem_range'_1]
  omega

theorem pairwise_spawned (htcount : qn ≠ 0 → 0 < tcount) :
    (spawned qn tcount).Pairwise fun a b => List.Disjoint (runRange a) (runRange b) := by
  have hnodup : ((spawned qn tcount).flatMap runRange).Nodup := by
    rw [flatMap_spawned htcount]
    exact List.nodup_range
  exact (List.nodup_flatMap.mp hnodup).2

/-- No query is left out, and no slot is written that is not there. -/
theorem mem_spawned (htcount : qn ≠ 0 → 0 < tcount) (i : Nat) :
    (∃ range ∈ spawned qn tcount, range.1 ≤ i ∧ i < range.2) ↔ i < qn := by
  rw [← List.mem_range, ← flatMap_spawned htcount, List.mem_flatMap]
  simp only [mem_runRange]

theorem slotOrder_perm (schedule : Nat → Nat) (htcount : qn ≠ 0 → 0 < tcount) :
    (slotOrder schedule qn tcount).Perm (List.range qn) := by
  rw [← flatMap_spawned htcount]
  exact Workers.order_perm schedule _

end Ranges

/-! ### One query at a time -/

variable {Score : Type} {cfg : EngineConfig Score} {e : Engine} {query : Vec} {queries : List Vec}
  {k ef : Nat}
  {filter : Option Filter}

theorem batchParams_eq (e : Engine) (filter : Option Filter) (ef : Nat) :
    e.batchParams filter ef = searchParams e.store filter ef := by
  by_cases hef : ef > 0
  · cases filter <;> simp [batchParams, searchParams, hef]
  · cases filter <;> simp [batchParams, searchParams, hef]

theorem search_mismatch [LT Score] [DecidableLT Score] (hquery : query.length ≠ e.store.dim.toNat) :
    e.search cfg query k filter ef =
      .error (.invalidArgument "Engine::search: query dimensionality mismatch") :=
  if_pos hquery

theorem searchBatch_mismatch [LT Score] [DecidableLT Score] (hmem : query ∈ queries)
    (hquery : query.length ≠ e.store.dim.toNat)
    {numThreads hardwareConcurrency : UInt32} {schedule : Nat → Nat} :
    e.searchBatch cfg queries k filter ef numThreads hardwareConcurrency schedule =
      .error (.invalidArgument "Engine::search_batch: query dimensionality mismatch") := by
  have hqn : ¬ queries.length = 0 := by
    intro hqn
    rw [List.length_eq_zero_iff.mp hqn] at hmem
    cases hmem
  have hany : (queries.any fun query => query.length ≠ e.store.dim.toNat) = true := by
    rw [List.any_eq_true]
    exact ⟨query, hmem, decide_eq_true hquery⟩
  rw [searchBatch, if_neg hqn, if_pos hany]

variable [LinearOrder Score]

theorem Wf.search_returns (hwf : e.Wf cfg) (hquery : query.length = e.store.dim.toNat) (k : Nat)
    (filter : Option Filter)
    (ef : Nat) : ∃ hits, e.search cfg query k filter ef = .ok hits := by
  rw [hwf.dim_eq] at hquery
  obtain ⟨hits, hsearch, -⟩ := hwf.search_sound hquery k filter ef
  exact ⟨hits, hsearch⟩

/-- Filling the slots in any order gives every query its own search. -/
theorem Wf.fill_slots (hwf : e.Wf cfg)
    (hqueries : ∀ query ∈ queries, query.length = e.store.dim.toNat) (hk : k ≠ 0)
    {jobs : List Nat} (hjobs : jobs.Perm (List.range queries.length)) :
    ∃ results, jobs.foldlM (Workers.fill (e.searchSlot cfg queries k (e.batchParams filter ef)))
        (List.replicate queries.length []) = .ok results ∧ results.length = queries.length ∧
      ∀ (i : Nat) (query : Vec), queries[i]? = some query →
        ∃ hits, results[i]? = some hits ∧ e.search cfg query k filter ef = .ok hits := by
  have hslot : ∀ i, ∃ hits, ∀ query, queries[i]? = some query →
      e.searchSlot cfg queries k (e.batchParams filter ef) i = .ok hits ∧
      e.search cfg query k filter ef = .ok hits := by
    intro i
    cases hi : queries[i]? with
    | none => exact ⟨[], fun query hquery => by cases hquery⟩
    | some query =>
        have hquery := hqueries query (List.mem_of_getElem? hi)
        obtain ⟨hits, hsearch⟩ := hwf.search_returns hquery k filter ef
        refine ⟨hits, fun query' heq => ?_⟩
        cases heq
        refine ⟨?_, hsearch⟩
        rw [searchSlot, hi, batchParams_eq, ← hsearch, search_eq hquery hk]
  choose hits hhits using hslot
  rw [← List.length_replicate (n := queries.length) (a := ([] : List (SearchResult Score)))] at hjobs
  refine ⟨_, Workers.foldlM_fill_all (g := hits) _ hjobs fun i hi => ?_, by simp, fun i query hquery => ?_⟩
  · rw [List.length_replicate] at hi
    exact (hhits i _ (List.getElem?_eq_getElem hi)).1
  · have hlt := (List.getElem?_eq_some_iff.mp hquery).1
    refine ⟨hits i, ?_, (hhits i query hquery).2⟩
    rw [List.getElem?_map, List.getElem?_range (by rwa [List.length_replicate])]
    rfl

theorem Wf.searchBatch_returns (hwf : e.Wf cfg)
    (hqueries : ∀ query ∈ queries, query.length = e.store.dim.toNat) (k : Nat)
    (filter : Option Filter) (ef : Nat) (numThreads hardwareConcurrency : UInt32) (schedule : Nat → Nat) :
    ∃ results, e.searchBatch cfg queries k filter ef numThreads hardwareConcurrency schedule = .ok results ∧
      results.length = queries.length ∧
      ∀ (i : Nat) (query : Vec), queries[i]? = some query →
        ∃ hits, results[i]? = some hits ∧ e.search cfg query k filter ef = .ok hits := by
  have hvalid : ¬ (queries.any fun query => query.length ≠ e.store.dim.toNat) = true := by
    rw [List.any_eq_true]
    rintro ⟨query, hmem, hne⟩
    exact of_decide_eq_true hne (hqueries query hmem)
  rw [searchBatch]
  by_cases hqn : queries.length = 0
  · rw [if_pos hqn]
    refine ⟨_, rfl, List.length_replicate, fun i query hquery => ?_⟩
    rw [List.length_eq_zero_iff.mp hqn] at hquery
    cases hquery
  rw [if_neg hqn, if_neg hvalid]
  by_cases hk : k = 0
  · subst hk
    rw [if_pos rfl]
    refine ⟨_, rfl, List.length_replicate, fun i query hquery => ⟨[], ?_, search_zero ?_⟩⟩
    · rw [List.getElem?_replicate, if_pos (List.getElem?_eq_some_iff.mp hquery).1]
    · exact hqueries query (List.mem_of_getElem? hquery)
  rw [if_neg hk]
  dsimp only
  split_ifs
  · exact hwf.fill_slots hqueries hk (List.Perm.of_eq (runRange_zero _))
  · exact hwf.fill_slots hqueries hk
      (slotOrder_perm schedule (batchThreads_pos numThreads hardwareConcurrency))

/-- **A batch is its queries one by one.** In every state an engine reaches, for every number of
threads, whatever the hardware has and however the workers take turns: the batch throws
`std::invalid_argument` if and only if a search of one of its queries does. Otherwise every query's
slot holds what a search of it returns. The ranges of the workers are disjoint, cover the queries
and nothing else, and every slot is written once. -/
theorem search_batch_is_serial (cfg : EngineConfig Score) (disk : Option Disk) (e₀ : Engine)
    (hcreate : create cfg disk = .ok e₀) (calls : List (IterOrder × Mutation)) (queries : List Vec) (k : Nat)
    (filter : Option Filter) (ef : Nat) (numThreads hardwareConcurrency : UInt32) (schedule : Nat → Nat) :
    ((∃ what, (e₀.run cfg calls).searchBatch cfg queries k filter ef numThreads hardwareConcurrency schedule =
        .error (.invalidArgument what)) ↔
      ∃ query ∈ queries, ∃ what, (e₀.run cfg calls).search cfg query k filter ef =
        .error (.invalidArgument what)) ∧
    ((¬ ∃ query ∈ queries, ∃ what, (e₀.run cfg calls).search cfg query k filter ef =
      .error (.invalidArgument what)) →
      ∃ results, (e₀.run cfg calls).searchBatch cfg queries k filter ef numThreads hardwareConcurrency schedule =
          .ok results ∧ results.length = queries.length ∧
        ∀ (i : Nat) (query : Vec), queries[i]? = some query →
          ∃ hits, results[i]? = some hits ∧ (e₀.run cfg calls).search cfg query k filter ef = .ok hits) ∧
    ∀ tcount, tcount = batchThreads numThreads hardwareConcurrency queries.length →
      ((spawned queries.length tcount).Pairwise fun a b => List.Disjoint (runRange a) (runRange b)) ∧
      (∀ i, (∃ range ∈ spawned queries.length tcount, range.1 ≤ i ∧ i < range.2) ↔ i < queries.length) ∧
      ∀ i < queries.length, (slotOrder schedule queries.length tcount).count i = 1 := by
  have hwf := (wf_of_create hcreate).run calls
  generalize e₀.run cfg calls = e at hwf ⊢
  have hreturns := fun (hqueries : ∀ query ∈ queries, query.length = e.store.dim.toNat) =>
    hwf.searchBatch_returns hqueries k filter ef numThreads hardwareConcurrency schedule
  have hthrows : (∃ query ∈ queries, ∃ what, e.search cfg query k filter ef =
    .error (.invalidArgument what)) ↔
      ∃ query ∈ queries, query.length ≠ e.store.dim.toNat := by
    refine exists_congr fun query => and_congr_right fun _ => ⟨?_, fun hquery => ⟨_, search_mismatch hquery⟩⟩
    rintro ⟨what, hthrow⟩ hquery
    obtain ⟨hits, hsearch⟩ := hwf.search_returns hquery k filter ef
    rw [hsearch] at hthrow
    cases hthrow
  rw [hthrows]
  refine ⟨⟨?_, ?_⟩, fun hnone => hreturns fun query hmem => ?_, ?_⟩
  · rintro ⟨what, hthrow⟩
    by_contra hnone
    obtain ⟨results, hbatch, -⟩ := hreturns fun query hmem => not_not.mp fun hquery => hnone
      ⟨query, hmem, hquery⟩
    rw [hbatch] at hthrow
    cases hthrow
  · rintro ⟨query, hmem, hquery⟩
    exact ⟨_, searchBatch_mismatch hmem hquery⟩
  · by_contra hquery
    exact hnone ⟨query, hmem, hquery⟩
  · rintro tcount rfl
    have htcount : queries.length ≠ 0 → 0 < batchThreads numThreads hardwareConcurrency queries.length :=
      batchThreads_pos numThreads hardwareConcurrency
    refine ⟨pairwise_spawned htcount, mem_spawned htcount, fun i hi => ?_⟩
    rw [(slotOrder_perm schedule htcount).count_eq]
    exact List.count_eq_one_of_mem List.nodup_range (List.mem_range.mpr hi)

/-- Three queries on two threads; the second worker goes first. -/
theorem search_batch_is_serial_sample :
    ∃ results, ((⟨{ dim := 1 }, .flat {}, none⟩ : Engine).run (sampleConfig .flat ⟨1, 1, 64, fun _ => 0⟩)
        sampleCalls).searchBatch (sampleConfig .flat ⟨1, 1, 64, fun _ => 0⟩)
        [[0], [0x40400000], [0x41200000]] 1 none 0 2 8
          (fun turn => turn) = .ok results ∧ results.length = 3 ∧
      ∃ hits, results[1]? = some hits ∧ ((⟨{ dim := 1 }, .flat {}, none⟩ : Engine).run
        (sampleConfig .flat ⟨1, 1, 64, fun _ => 0⟩) sampleCalls).search (sampleConfig .flat ⟨1, 1, 64, fun _ => 0⟩)
          [0x40400000] 1 none 0 = .ok hits := by
  obtain ⟨-, hreturns, -⟩ := search_batch_is_serial
    (sampleConfig .flat ⟨1, 1, 64, fun _ => 0⟩) none _ rfl sampleCalls
    [[0], [0x40400000], [0x41200000]] 1 none 0 2 8 fun turn => turn
  have hwf : (⟨{ dim := 1 }, .flat {}, none⟩ : Engine).Wf
    (sampleConfig .flat ⟨1, 1, 64, fun _ => 0⟩) := wf_initial (by decide) none
  have hdims : ∀ query ∈ ([[0], [0x40400000], [0x41200000]] : List Vec), query.length =
      ((⟨{ dim := 1 }, .flat {}, none⟩ : Engine).run
      (sampleConfig .flat ⟨1, 1, 64, fun _ => 0⟩) sampleCalls).store.dim.toNat := by
    decide +kernel
  obtain ⟨results, hbatch, hlength, hserial⟩ := hreturns fun hthrows => by
    obtain ⟨query, hmem, what, hthrow⟩ := hthrows
    obtain ⟨hits, hsearch⟩ := (hwf.run sampleCalls).search_returns (hdims query hmem) 1 none 0
    cases hsearch.symm.trans hthrow
  exact ⟨results, hbatch, hlength, hserial 1 _ rfl⟩

end Engine

end ToyVdb
