import ToyVdb.Engine.Run

/-!
# Search over runs

What `search` returns in every state a client can bring an engine into: exact hits from a flat engine,
sound ones from an HNSW engine. A filter is resolved into a bitset first, which admits exactly the live slots
whose metadata matches.
-/

namespace ToyVdb

namespace Engine

open Outcome

/-! ### The filter -/

/-- A slot a search may return: live, with metadata that matches if there is a filter. -/
def eligible (s : VectorStore) (filter : Option Filter) (id : Nat) : Bool :=
  s.isLive id && match filter with
    | none => true
    | some f => match s.metadata id with
      | some m => f.matchesMeta m
      | none => false

theorem allowSlot_eq (s : VectorStore) (f : Filter) (allowed : Bitset) (id : Nat) :
    allowSlot s f allowed id = if eligible s (some f) id then allowed.set id else allowed := by
  unfold allowSlot eligible
  cases s.isLive id with
  | false => rfl
  | true => cases s.metadata id <;> rfl

theorem test_foldl_allowSlot (s : VectorStore) (f : Filter) (ids : List Nat) (allowed : Bitset)
    (hids : ∀ id ∈ ids, id < allowed.size) (j : Nat) :
    (ids.foldl (allowSlot s f) allowed).test j = true ↔
      allowed.test j = true ∨ j ∈ ids ∧ eligible s (some f) j = true := by
  induction ids generalizing allowed with
  | nil => simp
  | cons id ids ih =>
      obtain ⟨hid, hids⟩ := List.forall_mem_cons.mp hids
      rw [List.foldl_cons, allowSlot_eq]
      by_cases heligible : eligible s (some f) id = true
      · rw [if_pos heligible, ih (allowed.set id) hids, Bitset.test_set _ hid]
        by_cases hj : j = id
        · subst hj
          simp [heligible]
        · simp [hj]
      · rw [if_neg heligible, ih _ hids]
        by_cases hj : j = id
        · subst hj
          simp [heligible]
        · simp [hj]

theorem test_allowedSet {s : VectorStore} (h : s.Ids) (f : Filter) (id : Nat) :
    (allowedSet s f).test id = eligible s (some f) id := by
  have hrange : ∀ id ∈ List.range s.slotCount, id < (Bitset.ofSize s.slotCount).size := fun id hid =>
    List.mem_range.mp hid
  rw [allowedSet, Bool.eq_iff_iff, test_foldl_allowSlot s f _ _ hrange, Bitset.test_ofSize, List.mem_range]
  constructor
  · intro hid
    exact (hid.resolve_left (by decide)).2
  · intro hid
    exact .inr ⟨h.lt_of_isLive (Bool.and_eq_true_iff.mp hid).1, hid⟩

/-- The index's parameters for a search. -/
def searchParams (s : VectorStore) (filter : Option Filter) (ef : Nat) : SearchParams :=
  { ef := if ef > 0 then ef else 64, allowed := filter.map (allowedSet s) }

theorem admits_searchParams {s : VectorStore} (h : s.Ids) (filter : Option Filter) (ef : Nat) :
    s.admits (searchParams s filter ef).allowed = eligible s filter := by
  funext id
  cases filter with
  | none => rfl
  | some f =>
      change (s.isLive id && (allowedSet s f).test id) = eligible s (some f) id
      rw [test_allowedSet h, eligible, ← Bool.and_assoc, Bool.and_self]

variable {Score : Type} {cfg : EngineConfig Score} {e e₀ : Engine} {query : Vec} {k ef : Nat}
  {filter : Option Filter}

theorem search_zero [LT Score] [DecidableLT Score] (hquery : query.length = e.store.dim.toNat) :
    e.search cfg query 0 filter ef = .ok [] := by
  rw [search, if_neg (not_not.mpr hquery), if_pos rfl]

theorem search_eq [LT Score] [DecidableLT Score] (hquery : query.length = e.store.dim.toNat) (hk : k ≠ 0) :
    e.search cfg query k filter ef = e.index.search cfg e.store query k (searchParams e.store filter ef) := by
  rw [search, if_neg (not_not.mpr hquery), if_neg hk]
  by_cases hef : ef > 0
  · cases filter <;> simp [searchParams, hef]
  · cases filter <;> simp [searchParams, hef]

/-! ### Flat engines -/

variable [LinearOrder Score]

theorem eligible_lt {s : VectorStore} (h : s.Ids) {id : Nat} (hid : eligible s filter id = true) :
    id < s.slotCount :=
  h.lt_of_isLive (Bool.and_eq_true_iff.mp hid).1

/-- A flat engine's hits, and their scores as the exact scan of the store has them. -/
theorem Wf.search_flat (hwf : e.Wf cfg) (hkind : cfg.index = .flat)
    (hquery : query.length = cfg.dim.toNat) (k : Nat)
    (filter : Option Filter) (ef : Nat) :
    ∃ hits, e.search cfg query k filter ef = .ok hits ∧
      Exact cfg.metric e.store query (eligible e.store filter) k hits ∧
      hits.map SearchResult.score = exactScores cfg.metric e.store query (eligible e.store filter) k := by
  have hquery' : query.length = e.store.dim.toNat := by rw [hquery, hwf.dim_eq]
  by_cases hk : k = 0
  · subst hk
    exact ⟨[], search_zero hquery', exact_zero, List.take_zero.symm⟩
  obtain ⟨f, hindex, hnodup, hlive⟩ := hwf.flat hkind
  rw [search_eq hquery' hk, hindex, ← admits_searchParams hwf.ids filter ef]
  exact FlatIndex.search_exact cfg.metric query _ hnodup
    (fun id hid => (hlive id).mpr (Bool.and_eq_true_iff.mp hid).1)
    (fun id hid => hwf.ids.lt_of_isLive hid) k

/-- **Flat search is exact.** In every state a flat engine reaches, in memory or on a disk, a query
of the right dimension returns the k closest eligible slots: distinct, live and matching, with their
current distances, closest first, as many as there are up to k, and nothing left out is closer than
anything returned. -/
theorem flat_search_is_exact (cfg : EngineConfig Score) (hkind : cfg.index = .flat) (disk : Option Disk)
    (e₀ : Engine) (hcreate : create cfg disk = .ok e₀) (calls : List (IterOrder × Mutation)) (query : Vec)
    (hquery : query.length = cfg.dim.toNat) (k ef : Nat) (filter : Option Filter) :
    ∃ hits, (e₀.run cfg calls).search cfg query k filter ef = .ok hits ∧
      Exact cfg.metric (e₀.run cfg calls).store query (eligible (e₀.run cfg calls).store filter) k hits := by
  obtain ⟨hits, hsearch, hexact, -⟩ := ((wf_of_create hcreate).run calls).search_flat hkind hquery k filter ef
  exact ⟨hits, hsearch, hexact⟩

/-- Insert, delete, re-insert, update, reject, compact. -/
def sampleCalls : List (IterOrder × Mutation) :=
  [.write (.insert (ascii "a") [0] ∅), .write (.insert (ascii "b") [0x40400000] ∅),
    .write (.erase (ascii "a")),
    .write (.insert (ascii "a") [0x41200000] ∅), .write (.update (ascii "b") [0xC0800000] none),
    .write (.insert (ascii "c") [] ∅), .compact].map fun m => (IterOrder.byKey, m)

theorem flat_search_is_exact_sample :
    ∃ hits, ((⟨{ dim := 1 }, .flat {}, none⟩ : Engine).run (sampleConfig .flat ⟨1, 1, 64, fun _ => 0⟩)
      sampleCalls).search (sampleConfig .flat ⟨1, 1, 64, fun _ => 0⟩) [0] 1 none 0 = .ok hits ∧
      hits.length = 1 := by
  obtain ⟨hits, hsearch, hexact⟩ :=
    flat_search_is_exact (sampleConfig .flat ⟨1, 1, 64, fun _ => 0⟩) rfl none _ rfl sampleCalls
    [0] rfl 1 0 none
  exact ⟨hits, hsearch, hexact.length_eq.trans (by decide +kernel)⟩

/-! ### HNSW engines -/

theorem Wf.search_hnsw (hwf : e.Wf cfg) (hkind : cfg.index = .hnsw)
    (hquery : query.length = cfg.dim.toNat) (k : Nat)
    (filter : Option Filter) (ef : Nat) :
    ∃ hits, e.search cfg query k filter ef = .ok hits ∧
      Sound cfg.metric e.store query (eligible e.store filter) hits ∧ hits.length ≤ k ∧
      ∀ h, e.index = .hnsw h → k ≠ 0 → e.store.slotCount ≠ 0 →
        ∃ ep best, h.entryPoint = some ep ∧
          h.descend cfg.metric e.store query ep h.maxLevel.toNat 1 = .ok best ∧
          HnswIndex.Queried h e.store k (searchParams e.store filter ef).allowed best.id hits := by
  have hquery' : query.length = e.store.dim.toNat := by rw [hquery, hwf.dim_eq]
  by_cases hk : k = 0
  · subst hk
    exact ⟨[], search_zero hquery', sound_nil, Nat.le_refl 0, fun _ _ h => absurd rfl h⟩
  obtain ⟨g, hindex, hgraph, hlen⟩ := hwf.hnsw hkind
  rw [search_eq hquery' hk, hindex]
  by_cases hnodes : g.nodes = []
  · have hempty : g.entryPoint = none := by
      have hentry := hgraph.entry
      unfold HnswIndex.EntryInv at hentry
      cases hep : g.entryPoint with
      | none => rfl
      | some ep =>
          rw [hep] at hentry
          obtain ⟨lv, hlv, -⟩ := hentry
          exact absurd (HnswIndex.lt_of_level? hlv) (by rw [hnodes]; exact Nat.not_lt_zero _)
    refine ⟨[], HnswIndex.search_empty hempty, sound_nil, Nat.zero_le k, fun h heq _ hslots => ?_⟩
    rw [← hlen, hnodes] at hslots
    exact absurd rfl hslots
  · have hyields : Yields (g.search cfg.metric e.store query k (searchParams e.store filter ef)) _ :=
      HnswIndex.search_yields hgraph hlen.le hk hnodes
    obtain ⟨hits, hsearch, hsound, hlength, hqueried⟩ := hyields
    refine ⟨hits, hsearch, ?_, hlength, fun h heq _ _ => ?_⟩
    · rwa [admits_searchParams hwf.ids] at hsound
    · cases heq
      exact hqueried

theorem Wf.search_sound (hwf : e.Wf cfg) (hquery : query.length = cfg.dim.toNat) (k : Nat)
    (filter : Option Filter) (ef : Nat) :
    ∃ hits, e.search cfg query k filter ef = .ok hits ∧
      Sound cfg.metric e.store query (eligible e.store filter) hits := by
  cases hkind : cfg.index with
  | flat =>
      obtain ⟨hits, hsearch, hexact, -⟩ := hwf.search_flat hkind hquery k filter ef
      exact ⟨hits, hsearch, hexact.toSound⟩
  | hnsw =>
      obtain ⟨hits, hsearch, hsound, -⟩ := hwf.search_hnsw hkind hquery k filter ef
      exact ⟨hits, hsearch, hsound⟩

/-- **HNSW search is sound.** In every state an HNSW engine reaches, in memory or on a disk, a query
of the right dimension returns: at most k hits and at most one per eligible slot, distinct, live and
matching, with their current distances, closest first, and rank by rank no closer than an exact scan
of the same store. -/
theorem hnsw_search_is_sound (cfg : EngineConfig Score) (hkind : cfg.index = .hnsw) (disk : Option Disk)
    (e₀ : Engine) (hcreate : create cfg disk = .ok e₀) (calls : List (IterOrder × Mutation)) (query : Vec)
    (hquery : query.length = cfg.dim.toNat) (k ef : Nat) (filter : Option Filter) :
    ∃ hits scan : List (SearchResult Score), (e₀.run cfg calls).search cfg query k filter ef = .ok hits ∧
      Sound cfg.metric (e₀.run cfg calls).store query (eligible (e₀.run cfg calls).store filter) hits ∧
      hits.length ≤ min k (candidates (e₀.run cfg calls).store
        (eligible (e₀.run cfg calls).store filter)).length ∧
      FlatIndex.search cfg.metric (e₀.run cfg calls).store
        ⟨List.range (e₀.run cfg calls).store.slotCount⟩ query k
        (searchParams (e₀.run cfg calls).store filter ef) = .ok scan ∧
      ∀ (i : Nat) (hit : SearchResult Score), hits[i]? = some hit →
        ∃ best : SearchResult Score, scan[i]? = some best ∧ best.score ≤ hit.score := by
  have hwf := (wf_of_create hcreate).run calls
  obtain ⟨hits, hsearch, hsound, hlength, -⟩ := hwf.search_hnsw hkind hquery k filter ef
  have hlt := fun id (hid : eligible (e₀.run cfg calls).store filter id = true) => eligible_lt hwf.ids hid
  obtain ⟨scan, hscan, -, hscores⟩ := FlatIndex.search_exact cfg.metric query
    (searchParams (e₀.run cfg calls).store filter ef) List.nodup_range
    (fun id hid => List.mem_range.mpr (hwf.ids.lt_of_isLive (Bool.and_eq_true_iff.mp hid).1))
    (fun id hid => hwf.ids.lt_of_isLive hid) k
  refine ⟨hits, scan, hsearch, hsound, Nat.le_min.mpr ⟨hlength, hsound.length_le hlt⟩, hscan,
    fun i hit hhit => ?_⟩
  obtain ⟨score, hscore, hle⟩ := hsound.exactScores_le hlt hlength hhit
  rw [admits_searchParams hwf.ids] at hscores
  rw [← hscores, List.getElem?_map, Option.map_eq_some_iff] at hscore
  obtain ⟨best, hbest, rfl⟩ := hscore
  exact ⟨best, hbest, hle⟩

theorem hnsw_search_is_sound_sample :
    ∃ hits, ((⟨{ dim := 1 }, .hnsw {}, none⟩ : Engine).run (sampleConfig .hnsw ⟨1, 1, 64, fun n => n % 2⟩)
      sampleCalls).search (sampleConfig .hnsw ⟨1, 1, 64, fun n => n % 2⟩) [0] 1 none 0 = .ok hits ∧
      hits.length = 1 ∧
      ∀ hit ∈ hits, hit.score = l2.distance [0] (((⟨{ dim := 1 }, .hnsw {}, none⟩ : Engine).run
        (sampleConfig .hnsw ⟨1, 1, 64, fun n => n % 2⟩) sampleCalls).store.get hit.id) := by
  obtain ⟨hits, _, hsearch, hsound, -⟩ :=
    hnsw_search_is_sound (sampleConfig .hnsw ⟨1, 1, 64, fun n => n % 2⟩) rfl none _ rfl
    sampleCalls [0] rfl 1 0 none
  refine ⟨hits, hsearch, ?_, hsound.score_eq⟩
  cases hsearch
  decide +kernel

/-! ### The graph -/

omit [LinearOrder Score] in
theorem Written.invalidArgument {order : IterOrder} {w : Write} {err : Error} {e' : Engine}
    (h : Written cfg e order w (.error err) e') : ∃ what, err = .invalidArgument what := by
  cases h with
  | thrown _ hmut =>
      cases hmut with
      | rejected happlied =>
          cases happlied with
          | rejected => exact ⟨_, rfl⟩

/-- A call on a well-formed engine returns or throws `std::invalid_argument`. -/
theorem Wf.exec_error (hwf : e.Wf cfg) {order : IterOrder} {m : Mutation} {err : Error}
    (herr : (m.exec cfg order e).1 = .error err) : ∃ what, err = .invalidArgument what := by
  cases m with
  | write w =>
      have hwritten := hwf.write order w
      rw [show (w.exec cfg order e).1 = .error err from herr] at hwritten
      exact hwritten.invalidArgument
  | compact =>
      obtain ⟨e', hcompact, -⟩ := hwf.compact order
      rw [Mutation.exec, hcompact] at herr
      cases herr

/-- **The HNSW graph invariant.** In every state an HNSW engine reaches the graph has a built
node for every slot and satisfies its invariant; so no call and no search from there ever reads outside an
array or fails to end: a call returns or throws `std::invalid_argument`, and a search returns. -/
theorem hnsw_graph_invariant (cfg : EngineConfig Score) (hkind : cfg.index = .hnsw) (disk : Option Disk)
    (e₀ : Engine) (hcreate : create cfg disk = .ok e₀) (calls : List (IterOrder × Mutation)) :
    (∃ h, (e₀.run cfg calls).index = .hnsw h ∧ h.nodes.length = (e₀.run cfg calls).store.slotCount ∧
      HnswIndex.GraphInv cfg.hnsw h) ∧
    (∀ order m err, (Mutation.exec cfg order (e₀.run cfg calls) m).1 = .error err →
      ∃ what, err = .invalidArgument what) ∧
    ∀ query k filter ef, query.length = cfg.dim.toNat →
      ∃ hits, (e₀.run cfg calls).search cfg query k filter ef = .ok hits := by
  have hwf := (wf_of_create hcreate).run calls
  refine ⟨?_, fun order m err herr => hwf.exec_error herr, fun query k filter ef hquery => ?_⟩
  · obtain ⟨h, hindex, hgraph, hlength⟩ := hwf.hnsw hkind
    exact ⟨h, hindex, hlength, hgraph⟩
  · obtain ⟨hits, hsearch, -⟩ := hwf.search_hnsw hkind hquery k filter ef
    exact ⟨hits, hsearch⟩

theorem hnsw_graph_invariant_sample :
    ∃ h, ((⟨{ dim := 1 }, .hnsw {}, none⟩ : Engine).run (sampleConfig .hnsw ⟨1, 1, 64, fun n => n % 2⟩)
      sampleCalls).index = .hnsw h ∧ h.nodes.length = 2 := by
  obtain ⟨⟨h, hindex, hlength, -⟩, -⟩ :=
    hnsw_graph_invariant (sampleConfig .hnsw ⟨1, 1, 64, fun n => n % 2⟩) rfl none _ rfl
    sampleCalls
  exact ⟨h, hindex, hlength.trans (by decide +kernel)⟩

end Engine

end ToyVdb
