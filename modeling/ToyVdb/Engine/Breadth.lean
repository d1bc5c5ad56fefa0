import ToyVdb.Engine.Batch
import ToyVdb.Engine.Compaction
import ToyVdb.Engine.Reach
import ToyVdb.Hnsw.Breadth
import ToyVdb.Hnsw.Detour

/-!
# The configured breadth

No search reads the configured breadth: one that is given no breadth takes the default of `SearchParams`.
Where both leave room for every eligible entry, or are no more than the number of hits asked for, the
difference cannot be seen; everywhere else there is an engine that shows it.
-/

namespace ToyVdb

namespace Engine

open Outcome

variable {Score : Type} [LinearOrder Score] {cfg : EngineConfig Score} {e : Engine} {k ef : Nat}
  {filter : Option Filter}

/-- A search or a batch that is given no breadth returns what it returns with the configured one. -/
def BreadthIsDefault (cfg : EngineConfig Score) (e : Engine) (k : Nat) (filter : Option Filter) : Prop :=
  (∀ query : Vec, query.length = cfg.dim.toNat →
    e.search cfg query k filter 0 = e.search cfg query k filter cfg.hnsw.efSearch) ∧
  ∀ queries : List Vec, (∀ query ∈ queries, query.length = cfg.dim.toNat) →
    ∀ (numThreads hardwareConcurrency : UInt32) (schedule : Nat → Nat),
      e.searchBatch cfg queries k filter 0 numThreads hardwareConcurrency schedule =
        e.searchBatch cfg queries k filter cfg.hnsw.efSearch numThreads hardwareConcurrency schedule

/-! ### Where it cannot be seen -/

theorem Wf.searchBatch_congr (hwf : e.Wf cfg) {ef' : Nat}
    (hsearch : ∀ query : Vec, query.length = cfg.dim.toNat →
      e.search cfg query k filter ef = e.search cfg query k filter ef')
    {queries : List Vec} (hqueries : ∀ query ∈ queries, query.length = cfg.dim.toNat)
    (numThreads hardwareConcurrency : UInt32) (schedule : Nat → Nat) :
    e.searchBatch cfg queries k filter ef numThreads hardwareConcurrency schedule =
      e.searchBatch cfg queries k filter ef' numThreads hardwareConcurrency schedule := by
  have hdims : ∀ query ∈ queries, query.length = e.store.dim.toNat := fun query hquery => by
    rw [hwf.dim_eq]
    exact hqueries query hquery
  obtain ⟨results, hbatch, hlength, hslots⟩ :=
    hwf.searchBatch_returns hdims k filter ef numThreads hardwareConcurrency schedule
  obtain ⟨results', hbatch', hlength', hslots'⟩ :=
    hwf.searchBatch_returns hdims k filter ef' numThreads hardwareConcurrency schedule
  rw [hbatch, hbatch']
  congr 1
  apply List.ext_getElem?
  intro i
  rcases Nat.lt_or_ge i queries.length with hlt | hge
  · have hi := List.getElem?_eq_getElem hlt
    obtain ⟨hits, hhits, hfound⟩ := hslots i _ hi
    obtain ⟨hits', hhits', hfound'⟩ := hslots' i _ hi
    rw [hsearch _ (hqueries _ (List.getElem_mem hlt)), hfound'] at hfound
    rw [hhits, hhits', Except.ok.inj hfound]
  · rw [List.getElem?_eq_none (hlength ▸ hge), List.getElem?_eq_none (hlength' ▸ hge)]

theorem Wf.search_eq_of_breadth (hwf : e.Wf cfg) (hkind : cfg.index = .hnsw) (hef : 1 ≤ ef)
    (hcond : k = 0 ∨ max 64 k = max ef k ∨
      (candidates e.store (eligible e.store filter)).length ≤ min (max 64 k) (max ef k))
    {query : Vec} (hquery : query.length = cfg.dim.toNat) :
    e.search cfg query k filter 0 = e.search cfg query k filter ef := by
  have hquery' : query.length = e.store.dim.toNat := by rw [hquery, hwf.dim_eq]
  by_cases hk : k = 0
  · subst hk
    rw [search_zero hquery', search_zero hquery']
  obtain ⟨h, hindex, hgraph, hlength⟩ := hwf.hnsw hkind
  have hdefault : searchParams e.store filter 0 = ⟨64, filter.map (allowedSet e.store)⟩ := rfl
  have hgiven : searchParams e.store filter ef = ⟨ef, filter.map (allowedSet e.store)⟩ := by
    rw [searchParams, if_pos (show ef > 0 from hef)]
  rw [search_eq hquery' hk, search_eq hquery' hk, hindex, hdefault, hgiven]
  change h.search cfg.metric e.store query k _ = h.search cfg.metric e.store query k _
  rcases hcond.resolve_left hk with hsame | hroom
  · rw [HnswIndex.search, HnswIndex.search]
    simp only [hsame]
  · have hA : ∀ i, e.store.admits (filter.map (allowedSet e.store)) i = true →
        i ∈ (candidates e.store (eligible e.store filter)).toFinset := by
      intro i hi
      have hadmits := admits_searchParams hwf.ids filter 0
      rw [hdefault] at hadmits
      rw [List.mem_toFinset, mem_candidates fun id hid => eligible_lt hwf.ids hid, ← hadmits]
      exact hi
    have hcard := (List.toFinset_card_le (candidates e.store (eligible e.store filter))).trans hroom
    exact HnswIndex.search_eq_of_room hgraph hlength.le hA (hcard.trans (Nat.min_le_left _ _))
      (hcard.trans (Nat.min_le_right _ _)) query

/-! ### Where it can be seen -/

omit [LinearOrder Score]

/-- The points of a detour on a line. -/
def lineDetour : HnswIndex.Detour l2 where
  near := [0]
  gate := [0x40A00000]
  goal := [0x40400000]
  query := [0x40000000]
  goal_gate := by decide
  gate_gate := by decide
  gate_goal := by decide
  query_goal := by decide
  query_near := by decide

/-- Links are plenty, every node is on the bottom layer, and an insertion looks for a single neighbour. -/
def detourConfig (ef n : Nat) : EngineConfig Int := sampleConfig .hnsw ⟨n + 1, 1, ef, fun _ => 0⟩

/-- The i-th point, under an id of its own. -/
def detourEntry (m i : Nat) : LiveEntry := ⟨List.replicate i 0, lineDetour.point m i, ∅⟩

/-- Insert all points, with m near ones and n besides the gate, and take the gate away. -/
def detourCalls (m n : Nat) : List (IterOrder × Mutation) :=
  ((List.range (n + 1)).map fun i => (IterOrder.byKey,
    Mutation.write (.insert (detourEntry m i).extId (detourEntry m i).vec (detourEntry m i).metadata))) ++
  [(IterOrder.byKey, .write (.erase (List.replicate m 0)))]

section Exec

variable {Score : Type} [LinearOrder Score] {cfg : EngineConfig Score}

theorem mutate_insert_new {e : Engine} {entry : LiveEntry} (hnew : e.store.extToInt.lookup entry.extId = none)
    (hfits : entry.vec.length = e.store.dim.toNat) {index : Index}
    (hadd : e.index.add cfg (e.store.appendSlot entry.extId entry.vec entry.metadata) e.store.slotCount =
      .ok index) :
    e.mutate cfg entry.insertOp = (.ok e.store.slotCount,
      { e with store := e.store.appendSlot entry.extId entry.vec entry.metadata, index := index }) := by
  have hdim : UInt32.ofNat entry.vec.length = e.store.dim := by rw [hfits, UInt32.ofNat_toNat]
  have hisNew : (e.store.resolve entry.extId).isNone = true := by
    rw [VectorStore.resolve, hnew]
    rfl
  simp only [mutate, LiveEntry.insertOp, apply_new hnew hdim, hisNew, hadd, if_true]

theorem mutate_erase {e : Engine} {x : Bytes} {id : Nat} (hid : e.store.resolve x = some id) :
    e.mutate cfg ⟨.delete, x, [], none⟩ = (.ok kInvalidId,
      { e with store := e.store.tombstoneSlot id, index := e.index.remove id }) := by
  simp only [mutate, VectorStore.apply, VectorStore.doErase, hid]

end Exec

/-- The engine after the first j points. -/
structure Laid (ef n m j : Nat) (e : Engine) : Prop where
  dense : Dense e.store ((List.range j).map (detourEntry m))
  dim_eq : e.store.dim = 1
  index : j = 0 ∧ e.index = .hnsw {} ∨
    0 < j ∧ ∃ h, e.index = .hnsw h ∧ HnswIndex.Star (detourConfig ef n).hnsw m j h

theorem length_point (m i : Nat) : (lineDetour.point m i).length = 1 := by
  unfold HnswIndex.Detour.point
  split_ifs <;> rfl

section Laid

variable {n m j : Nat} {e : Engine} {s : VectorStore}

theorem slotCount_of_dense (h : Dense s ((List.range j).map (detourEntry m))) : s.slotCount = j := by
  rw [h.slots, List.length_map, List.length_range]

theorem slot_of_dense (h : Dense s ((List.range j).map (detourEntry m))) {i : Nat} (hi : i < j) :
    s.externalId i = List.replicate i 0 ∧ s.get i = lineDetour.point m i := by
  have hentry : ((List.range j).map (detourEntry m))[i]? = some (detourEntry m i) := by
    rw [List.getElem?_map, List.getElem?_range hi]
    rfl
  obtain ⟨-, hid, hget, -⟩ := h.slot hentry
  exact ⟨hid, hget⟩

theorem lookup_next (h : Dense s ((List.range j).map (detourEntry m))) :
    s.extToInt.lookup (List.replicate j 0) = none := by
  rw [Option.eq_none_iff_forall_not_mem]
  intro i hi
  have hlt : i < j := slotCount_of_dense h ▸ h.wf.lt_of_lookup hi
  have hid := externalId_eq ((slotCount_of_dense h).symm ▸ hlt)
  rw [(h.wf.lookup_iff _ _).mp hi, (slot_of_dense h hlt).1] at hid
  have hlen := congrArg List.length (Option.some.inj hid)
  rw [List.length_replicate, List.length_replicate] at hlen
  exact hlt.ne' hlen

theorem Laid.index_add (hm : 0 < m) (hj : j ≤ n) (h : Laid ef n m j e)
    (hdense : Dense s ((List.range (j + 1)).map (detourEntry m))) :
    ∃ g, e.index.add (detourConfig ef n) s j = .ok (.hnsw g) ∧
      HnswIndex.Star (detourConfig ef n).hnsw m (j + 1) g := by
  have hslots := slotCount_of_dense hdense
  rcases h.index with ⟨rfl, hindex⟩ | ⟨hpos, old, hindex, hstar⟩
  · have hadd : Yields (HnswIndex.add l2 s {} (detourConfig ef n).hnsw 0) _ :=
      HnswIndex.star_first (graphInv_empty _) (fun _ => rfl) m (by omega)
    obtain ⟨g, hg, hstar⟩ := hadd
    refine ⟨g, ?_, hstar⟩
    rw [hindex]
    exact congrArg (Except.map Index.hnsw) hg
  · have hadd : Yields (HnswIndex.add l2 s old (detourConfig ef n).hnsw j) _ :=
      hstar.insert lineDetour hm hpos (fun _ => rfl) rfl (show j < 2 * (n + 1) by omega) (by omega)
        (fun i hi => (slot_of_dense hdense (Nat.lt_succ_of_le hi)).2)
        (fun i hi => hdense.isLive (by omega))
    obtain ⟨g, hg, hstar⟩ := hadd
    refine ⟨g, ?_, hstar⟩
    rw [hindex]
    exact congrArg (Except.map Index.hnsw) hg

theorem Laid.insert (hm : 0 < m) (hj : j ≤ n) (h : Laid ef n m j e) :
    Laid ef n m (j + 1) ((Write.insert (detourEntry m j).extId (detourEntry m j).vec
      (detourEntry m j).metadata).exec (detourConfig ef n) .byKey e).2 := by
  have hnew : e.store.extToInt.lookup (detourEntry m j).extId = none := lookup_next h.dense
  have hfits : (detourEntry m j).vec.length = e.store.dim.toNat := by
    rw [h.dim_eq]
    exact length_point m j
  have hdense := h.dense.append hnew hfits
  have hentries : (List.range j).map (detourEntry m) ++ [detourEntry m j] =
      (List.range (j + 1)).map (detourEntry m) := by
    rw [List.range_succ, List.map_append, List.map_singleton]
  rw [hentries] at hdense
  obtain ⟨g, hadd, hstar⟩ := h.index_add hm hj hdense
  have hmutate := mutate_insert_new (e := e.logOp .byKey (detourEntry m j).insertOp) hnew hfits (by
    rw [show (e.logOp .byKey (detourEntry m j).insertOp).store.slotCount = j from slotCount_of_dense h.dense]
    exact hadd)
  rw [exec_eq, if_neg fun hskip => hskip.1 rfl,
    show (Write.insert (detourEntry m j).extId (detourEntry m j).vec (detourEntry m j).metadata).op =
      (detourEntry m j).insertOp from rfl, hmutate]
  exact ⟨hdense, h.dim_eq, .inr ⟨Nat.succ_pos j, g, rfl, hstar⟩⟩

theorem laid_range (hm : 0 < m) {e₀ : Engine} (hstart : Laid ef n m 0 e₀) (hj : j ≤ n + 1) :
    Laid ef n m j (e₀.run (detourConfig ef n) ((List.range j).map fun i => (IterOrder.byKey,
      Mutation.write (.insert (detourEntry m i).extId (detourEntry m i).vec
        (detourEntry m i).metadata)))) := by
  induction j with
  | zero => exact hstart
  | succ j ih =>
      rw [List.range_succ, List.map_append, Engine.run, List.foldl_append]
      exact (ih (by omega)).insert hm (by omega)

/-- All points are there, and all but the gate are live. -/
structure Shown (ef n m : Nat) (e : Engine) : Prop where
  index : ∃ g, e.index = .hnsw g ∧ HnswIndex.Star (detourConfig ef n).hnsw m (n + 1) g
  slotCount_eq : e.store.slotCount = n + 1
  get_eq : ∀ i < n + 1, e.store.get i = lineDetour.point m i
  isLive_iff : ∀ i < n + 1, e.store.isLive i = true ↔ i ≠ m

theorem Laid.erase_gate (hmn : m < n) (h : Laid ef n m (n + 1) e) :
    Shown ef n m ((Write.erase (List.replicate m 0)).exec (detourConfig ef n) .byKey e).2 := by
  obtain ⟨-, g, hindex, hstar⟩ := h.index.resolve_left fun hzero => Nat.succ_ne_zero n hzero.1
  have hslots := slotCount_of_dense h.dense
  have hgate : e.store.resolve (List.replicate m 0) = some m := by
    rw [← (slot_of_dense h.dense (show m < n + 1 by omega)).1]
    exact resolve_externalId h.dense.wf.toIds (h.dense.isLive (by omega))
  have hmutate : (e.logOp .byKey ⟨.delete, List.replicate m 0, [], none⟩).mutate (detourConfig ef n)
      ⟨.delete, List.replicate m 0, [], none⟩ = _ := mutate_erase hgate
  have hreached : ¬ ((Write.erase (List.replicate m 0)).op.type ≠ .insert ∧
      e.store.resolve (Write.erase (List.replicate m 0)).op.extId = none) := fun hskip => by
    cases hgate.symm.trans hskip.2
  rw [exec_eq, if_neg hreached,
    show (Write.erase (List.replicate m 0)).op = ⟨.delete, List.replicate m 0, [], none⟩ from rfl, hmutate]
  refine ⟨⟨g, congrArg (Index.remove m) hindex, hstar⟩, hslots, fun i hi => (slot_of_dense h.dense hi).2,
    fun i hi => ?_⟩
  change (e.store.tombstoneSlot m).isLive i = true ↔ i ≠ m
  rw [VectorStore.isLive_tombstoneSlot]
  by_cases hi' : i = m
  · rw [if_pos hi']
    exact ⟨fun h => absurd h (by decide), fun hne => absurd hi' hne⟩
  · rw [if_neg hi']
    exact ⟨fun _ => hi', fun _ => h.dense.isLive (hslots.symm ▸ hi)⟩

theorem shown_run (hm : 0 < m) (hmn : m < n) {e₀ : Engine} (hstart : Laid ef n m 0 e₀) :
    Shown ef n m (e₀.run (detourConfig ef n) (detourCalls m n)) := by
  rw [detourCalls, Engine.run, List.foldl_append]
  exact (laid_range hm hstart (le_refl (n + 1))).erase_gate hmn

theorem Shown.length_candidates (hmn : m < n) (h : Shown ef n m e) :
    (candidates e.store (eligible e.store none)).length = n := by
  have hfilter : candidates e.store (eligible e.store none) = (List.range (n + 1)).erase m := by
    rw [candidates, h.slotCount_eq, List.nodup_range.erase_eq_filter]
    apply List.filter_congr
    intro i hi
    have hlive := h.isLive_iff i (List.mem_range.mp hi)
    rw [eligible, Bool.and_true, Bool.eq_iff_iff, hlive, bne_iff_ne]
  rw [hfilter, List.length_erase_of_mem (List.mem_range.mpr (by omega)), List.length_range]
  rfl

/-- Two breadths, one with room for the near points and no more, do not find the same. -/
theorem Shown.search_ne (hm : 0 < m) (hmn : m < n) (h : Shown ef n m e) (hdim : e.store.dim = 1) {k : Nat}
    (hk : k ≠ 0) {ef₁ ef₂ narrow wide : Nat} (hef₁ : (searchParams e.store none ef₁).ef = narrow)
    (hef₂ : (searchParams e.store none ef₂).ef = wide) (hnarrow : max narrow k = m) (hwide : m < max wide k) :
    e.search (detourConfig ef n) lineDetour.query k none ef₁ ≠
      e.search (detourConfig ef n) lineDetour.query k none ef₂ := by
  have hquery : lineDetour.query.length = e.store.dim.toNat := by
    rw [hdim]
    rfl
  obtain ⟨g, hindex, hstar⟩ := h.index
  have hadmits : ∀ i < n + 1, e.store.admits none i = true ↔ i ≠ m := fun i hi => by
    rw [← h.isLive_iff i hi, VectorStore.admits]
    simp
  subst hef₁ hef₂
  rw [search_eq hquery hk, search_eq hquery hk, hindex]
  exact hstar.search_ne lineDetour hm (by omega) h.slotCount_eq.ge h.get_eq hadmits hk hnarrow hwide

end Laid

/-! ### Exactly where -/

/-- An engine whose searches show the difference, with any number of eligible entries that either breadth
does not have room for. -/
theorem exists_breadth_seen {ef k n : Nat} (hef : 1 ≤ ef) (hk : k ≠ 0) (hne : max 64 k ≠ max ef k)
    (hn : min (max 64 k) (max ef k) < n) :
    ∃ e₀ calls, create (detourConfig ef n) none = .ok e₀ ∧
      (candidates (e₀.run (detourConfig ef n) calls).store
        (eligible (e₀.run (detourConfig ef n) calls).store none)).length = n ∧
      ¬ BreadthIsDefault (detourConfig ef n) (e₀.run (detourConfig ef n) calls) k none := by
  have hcreate : create (detourConfig ef n) none = .ok ⟨{ dim := 1 }, .hnsw {}, none⟩ := rfl
  generalize hm : min (max 64 k) (max ef k) = m at hn
  have hpos : 0 < m := by omega
  have hstart : Laid ef n m 0 ⟨{ dim := 1 }, .hnsw {}, none⟩ :=
    ⟨⟨VectorStore.wf_empty 1, rfl, rfl⟩, rfl, .inl ⟨rfl, rfl⟩⟩
  have hshown := shown_run hpos hn hstart
  have hdim := ((wf_of_create hcreate).run (detourCalls m n)).dim_eq
  refine ⟨_, detourCalls m n, hcreate, hshown.length_candidates hn, fun hdefault => ?_⟩
  have hsame := hdefault.1 lineDetour.query rfl
  have hnone : ∀ s : VectorStore, (searchParams s none 0).ef = 64 := fun _ => rfl
  have hgiven : ∀ s : VectorStore, (searchParams s none ef).ef = ef := fun _ => if_pos hef
  rcases Nat.lt_or_ge (max 64 k) (max ef k) with hless | hge
  · exact hshown.search_ne hpos hn hdim hk (hnone _) (hgiven _) (by omega) (by omega) hsame
  · exact hshown.search_ne hpos hn hdim hk (hgiven _) (hnone _) (by omega) (by omega) hsame.symm

/-- **Exactly when the configured breadth is the default.** The hits of every engine with n eligible entries
are the same without a breadth and with the configured one if and only if no hit is asked for, both come to
one breadth, or both have room for all n entries. -/
theorem configured_breadth_is_default_iff (ef k n : Nat) (hef : 1 ≤ ef) :
    (∀ (Score : Type) [LinearOrder Score] (cfg : EngineConfig Score), cfg.index = .hnsw →
      cfg.hnsw.efSearch = ef →
      ∀ (disk : Option Disk) (e₀ : Engine), create cfg disk = .ok e₀ →
        ∀ (calls : List (IterOrder × Mutation)) (filter : Option Filter),
          (candidates (e₀.run cfg calls).store (eligible (e₀.run cfg calls).store filter)).length = n →
            BreadthIsDefault cfg (e₀.run cfg calls) k filter) ↔
      k = 0 ∨ max 64 k = max ef k ∨ n ≤ min (max 64 k) (max ef k) := by
  constructor
  · intro hall
    by_contra hcond
    rw [not_or, not_or, not_le] at hcond
    obtain ⟨hk, hne, hn⟩ := hcond
    obtain ⟨e₀, calls, hcreate, hcount, hseen⟩ := exists_breadth_seen hef hk hne hn
    exact hseen (hall Int (detourConfig ef n) rfl rfl none e₀ hcreate calls none hcount)
  · rintro hcond Score _ cfg hkind rfl disk e₀ hcreate calls filter rfl
    have hwf := (wf_of_create hcreate).run calls
    have hsearch := fun (query : Vec) (hquery : query.length = cfg.dim.toNat) =>
      hwf.search_eq_of_breadth hkind hef hcond hquery
    exact ⟨hsearch, fun queries hqueries => hwf.searchBatch_congr hsearch hqueries⟩

theorem configured_breadth_is_default_sample :
    ((1 : Nat) = 0 ∨ max 64 1 = max 1 1 ∨ 1 ≤ min (max 64 1) (max 1 1)) ∧
      BreadthIsDefault (detourConfig 1 1)
        ((⟨{ dim := 1 }, .hnsw {}, none⟩ : Engine).run (detourConfig 1 1) (detourCalls 1 1)) 1 none :=
  ⟨by decide, (configured_breadth_is_default_iff 1 1 1 (by decide)).mpr (by decide) Int
    (detourConfig 1 1) rfl rfl none _ rfl (detourCalls 1 1) none (by decide +kernel)⟩

/-- With a configured breadth of one the search stops short of the goal that it finds without a breadth. -/
theorem configured_breadth_is_ignored :
    create (detourConfig 1 2) none = .ok ⟨{ dim := 1 }, .hnsw {}, none⟩ ∧
    (((⟨{ dim := 1 }, .hnsw {}, none⟩ : Engine).run (detourConfig 1 2) (detourCalls 1 2)).search
      (detourConfig 1 2) [0x40000000] 1 none 0).toOption.map (·.map (·.id)) = some [2] ∧
    (((⟨{ dim := 1 }, .hnsw {}, none⟩ : Engine).run (detourConfig 1 2) (detourCalls 1 2)).search
      (detourConfig 1 2) [0x40000000] 1 none (detourConfig 1 2).hnsw.efSearch).toOption.map (·.map (·.id)) =
        some [0] := by
  decide +kernel

end Engine

end ToyVdb
