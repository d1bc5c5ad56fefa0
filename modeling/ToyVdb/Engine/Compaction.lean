import ToyVdb.Engine.Sessions
import ToyVdb.Engine.Reach
import ToyVdb.Engine.Atomic

/-!
# Compaction

Compaction copies the live entries out, in slot order, and inserts them into an empty engine. A
restart from a snapshot does the same by way of the disk. What comes out is determined by the list
of live entries alone, and has exactly that list again, with no slot that is not live. So the two
agree, doing it twice is doing it once, and whatever can be said in terms of the live entries is as
it was.

Scores are linearly ordered, so this is about entries that have no undefined distance.
-/

namespace ToyVdb

namespace Engine

open Outcome

variable {Score : Type} {cfg : EngineConfig Score} {e e' : Engine} {entries : List LiveEntry}

/-! ### The live entries, one by one -/

section Entries

variable {s : VectorStore}

theorem liveSlots_appendSlot (h : s.Ids) (x : Bytes) (vec : Vec) (m : Metadata) :
    liveSlots (s.appendSlot x vec m) = liveSlots s ++ [s.slotCount] := by
  have hlive := VectorStore.isLive_appendSlot h.live_length x vec m
  have hold : (List.range s.slotCount).filter (s.appendSlot x vec m).isLive = liveSlots s := by
    apply List.filter_congr
    intro id hid
    rw [hlive, if_neg (Nat.ne_of_lt (List.mem_range.mp hid))]
  have hnew : (s.appendSlot x vec m).isLive s.slotCount = true := by rw [hlive, if_pos rfl]
  rw [liveSlots, VectorStore.slotCount_appendSlot, List.range_succ, List.filter_append, hold,
    List.filter_cons_of_pos hnew, List.filter_nil]

theorem liveEntries_appendSlot (h : s.Wf) (x : Bytes) {vec : Vec} (hvec : vec.length = s.dim.toNat)
    (m : Metadata) :
    liveEntries (s.appendSlot x vec m) = liveEntries s ++ [⟨x, vec, m⟩] := by
  rw [liveEntries, liveSlots_appendSlot h.toIds, List.map_append, List.map_singleton]
  congr 1
  · apply List.map_congr_left
    intro id hid
    have hlt := h.toIds.lt_of_isLive ((mem_liveSlots h.toIds).mp hid)
    have hext : (s.appendSlot x vec m).externalId id = s.externalId id := by
      rw [VectorStore.externalId, VectorStore.externalId, List.getD_eq_getElem?_getD,
        List.getD_eq_getElem?_getD]
      exact congrArg (Option.getD · []) (List.getElem?_append_left hlt)
    have hget : (s.appendSlot x vec m).get id = s.get id := Arena.row_append_of_le (h.row_le hlt)
    have hmeta : (s.appendSlot x vec m).metadata id = s.metadata id :=
      List.getElem?_append_left (h.metas_length ▸ hlt)
    rw [hext, hget, hmeta]
  · have hext : (s.appendSlot x vec m).externalId s.slotCount = x := by
      simp [VectorStore.externalId, VectorStore.appendSlot, VectorStore.slotCount]
    have hget : (s.appendSlot x vec m).get s.slotCount = vec := Arena.row_append_last h.arena_length hvec
    have hmeta : (s.appendSlot x vec m).metadata s.slotCount = some m := by
      rw [VectorStore.metadata, ← h.metas_length]
      exact List.getElem?_concat_length
    rw [hext, hget, hmeta]
    rfl

end Entries

/-- Entries that can be inserted into an empty engine one after the other. -/
structure Insertable (cfg : EngineConfig Score) (entries : List LiveEntry) : Prop where
  nodup : (entries.map LiveEntry.extId).Nodup
  fits : ∀ entry ∈ entries, entry.vec.length = cfg.dim.toNat

theorem Wf.insertable (hwf : e.Wf cfg) : Insertable cfg (liveEntries e.store) where
  nodup := by
    rw [liveEntries, List.map_map]
    exact nodup_liveIds hwf.ids
  fits entry hentry := by
    obtain ⟨id, hid, rfl⟩ := List.mem_map.mp hentry
    have hlt := hwf.ids.lt_of_isLive ((mem_liveSlots hwf.ids).mp hid)
    exact (length_get hwf.ids hlt).trans (congrArg _ hwf.dim_eq)

variable [LinearOrder Score]

/-! ### Inserting entries into an empty engine -/

/-- The engine is what inserting the entries into an empty one gives. -/
def Built (cfg : EngineConfig Score) (entries : List LiveEntry) (e : Engine) : Prop :=
  (entries.map LiveEntry.insertOp).foldlM (replayOp cfg)
    (⟨{ dim := cfg.dim }, Index.new cfg, e.disk⟩ : Engine) = .ok e

/-- The entries determine the store and the index. -/
theorem Built.sameState (h : Built cfg entries e) (h' : Built cfg entries e') : SameState e e' := by
  have hreplay := replayOps_withDisk cfg (entries.map LiveEntry.insertOp)
    ⟨{ dim := cfg.dim }, Index.new cfg, e.disk⟩ e'.disk
  rw [show List.foldlM (replayOp cfg) _ _ = .ok e from h] at hreplay
  have heq : e' = e.withDisk e'.disk := Except.ok.inj (h'.symm.trans hreplay)
  rw [heq]
  exact sameState_withDisk e _

/-- The store's slots are live and hold the entries, in order. -/
structure Dense (s : VectorStore) (entries : List LiveEntry) : Prop where
  wf : s.Wf
  entries_eq : liveEntries s = entries
  slots : s.slotCount = entries.length

omit [LinearOrder Score] in
theorem Dense.append {s : VectorStore} (h : Dense s entries) {entry : LiveEntry}
    (hnew : s.extToInt.lookup entry.extId = none)
    (hfits : entry.vec.length = s.dim.toNat) :
    Dense (s.appendSlot entry.extId entry.vec entry.metadata) (entries ++ [entry]) where
  wf := h.wf.appendSlot hnew hfits entry.metadata
  entries_eq := by rw [liveEntries_appendSlot h.wf entry.extId hfits, h.entries_eq]
  slots := by rw [VectorStore.slotCount_appendSlot, h.slots, List.length_append, List.length_singleton]

theorem replayOp_insert {entry : LiveEntry} (hnew : e.store.extToInt.lookup entry.extId = none)
    (hdim : UInt32.ofNat entry.vec.length = e.store.dim) (hreplay : e.replayOp cfg entry.insertOp = .ok e') :
    e'.store = e.store.appendSlot entry.extId entry.vec entry.metadata := by
  have happly : (e.store.apply entry.insertOp).2 = _ := congrArg Prod.snd (apply_new hnew hdim entry.metadata)
  have hstore : (e.mutate cfg entry.insertOp).2.store = _ := (mutate_store e entry.insertOp).trans happly
  obtain ⟨n, hcall⟩ := mutate_of_replayOp hreplay
  rwa [hcall] at hstore

theorem Dense.replay {before : List LiveEntry} (h : Dense e.store before) (hdim : e.store.dim = cfg.dim)
    (hnodup : ((before ++ entries).map LiveEntry.extId).Nodup)
    (hfits : ∀ entry ∈ entries, entry.vec.length = cfg.dim.toNat)
    (hids : e.store.extIds = before.map LiveEntry.extId)
    (hreplay : (entries.map LiveEntry.insertOp).foldlM (replayOp cfg) e = .ok e') :
    Dense e'.store (before ++ entries) ∧ e'.store.extIds = (before ++ entries).map LiveEntry.extId := by
  induction entries generalizing e before with
  | nil =>
      cases hreplay
      rw [List.append_nil]
      exact ⟨h, hids⟩
  | cons entry entries ih =>
      obtain ⟨hfit, hrest⟩ := List.forall_mem_cons.mp hfits
      have hnew : e.store.extToInt.lookup entry.extId = none := by
        rw [Option.eq_none_iff_forall_not_mem]
        intro id hid
        have hmem : entry.extId ∈ before.map LiveEntry.extId :=
          hids ▸ List.mem_of_getElem? ((h.wf.lookup_iff _ _).mp hid)
        rw [List.map_append, List.nodup_append] at hnodup
        exact hnodup.2.2 _ hmem _ List.mem_cons_self rfl
      have hlen : UInt32.ofNat entry.vec.length = e.store.dim := by rw [hfit, hdim, UInt32.ofNat_toNat]
      rw [List.map_cons, List.foldlM_cons] at hreplay
      obtain ⟨e₁, hstep, hreplay⟩ := exists_of_bind_eq_ok hreplay
      have hstore := replayOp_insert hnew hlen hstep
      have hdense := h.append hnew (hfit.trans (congrArg _ hdim.symm))
      rw [List.append_cons] at hnodup ⊢
      refine ih (hstore ▸ hdense) (hstore ▸ hdim) hnodup hrest ?_ hreplay
      rw [hstore, List.map_append, ← hids]
      rfl

theorem Built.dense (h : Built cfg entries e) (hentries : Insertable cfg entries) :
    Dense e.store entries := by
  have hempty : Dense (⟨{ dim := cfg.dim }, Index.new cfg, e.disk⟩ : Engine).store [] :=
    ⟨VectorStore.wf_empty cfg.dim, rfl, rfl⟩
  exact (hempty.replay rfl hentries.nodup hentries.fits rfl h).1

/-- Compaction builds an engine from the live entries. -/
theorem Wf.rebuild_built (hwf : e.Wf cfg) :
    ∃ c, e.rebuild cfg = (.ok (), c) ∧ c.Wf cfg ∧ c.disk = e.disk ∧ c.store.content = e.store.content ∧
      Built cfg (liveEntries e.store) c ∧ Dense c.store (liveEntries e.store) := by
  obtain ⟨c, hrebuild, hwf', -, hdisk, hcontent, hreplay⟩ := hwf.rebuild_eq
  rw [← liveEntries_map_insertOp hwf.ids, ← hdisk] at hreplay
  exact ⟨c, hrebuild, hwf', hdisk, hcontent, hreplay, Built.dense hreplay hwf.insertable⟩

/-! ### Nothing but live slots -/

section Dense

variable {s : VectorStore}

omit [LinearOrder Score]

theorem Dense.liveSlots_eq (h : Dense s entries) : liveSlots s = List.range s.slotCount := by
  have hlen : (liveSlots s).length = (List.range s.slotCount).length := by
    rw [List.length_range, h.slots, ← h.entries_eq, liveEntries, List.length_map]
  exact List.filter_eq_self.mpr (List.length_filter_eq_length_iff.mp hlen)

theorem Dense.isLive (h : Dense s entries) {id : Nat} (hid : id < s.slotCount) : s.isLive id = true := by
  rw [← mem_liveSlots h.wf.toIds, h.liveSlots_eq]
  exact List.mem_range.mpr hid

theorem Dense.size_eq (h : Dense s entries) : s.size = s.slotCount := by
  rw [Engine.size_eq h.wf.toIds, h.liveSlots_eq, List.length_range]

theorem Dense.slot (h : Dense s entries) {j : Nat} {entry : LiveEntry} (hentry : entries[j]? = some entry) :
    j < s.slotCount ∧ s.externalId j = entry.extId ∧ s.get j = entry.vec ∧
      s.metadata j = some entry.metadata := by
  have hlt : j < s.slotCount := by
    rw [h.slots]
    exact (List.getElem?_eq_some_iff.mp hentry).1
  rw [← h.entries_eq, liveEntries, h.liveSlots_eq, List.getElem?_map, List.getElem?_range hlt,
    Option.map_some,
    Option.some.injEq] at hentry
  subst hentry
  exact ⟨hlt, rfl, rfl, metadata_eq h.wf.toIds hlt⟩

end Dense

/-! ### Scores -/

section Scores

omit [LinearOrder Score]

/-- What a filter says of an entry. -/
def LiveEntry.matchesFilter (filter : Option Filter) (entry : LiveEntry) : Bool :=
  match filter with
  | none => true
  | some f => f.matchesMeta entry.metadata

theorem eligible_of_isLive {s : VectorStore} (h : s.Ids) (filter : Option Filter) {id : Nat}
    (hlive : s.isLive id = true) :
    eligible s filter id = LiveEntry.matchesFilter filter
      ⟨s.externalId id, s.get id, (s.metadata id).getD ∅⟩ := by
  unfold eligible
  rw [hlive, metadata_eq h (h.lt_of_isLive hlive)]
  cases filter <;> rfl

theorem candidates_eligible {s : VectorStore} (h : s.Ids) (filter : Option Filter) {α : Type}
    (f : LiveEntry → α) :
    (candidates s (eligible s filter)).map (fun id => f ⟨s.externalId id, s.get id, (s.metadata id).getD ∅⟩) =
      ((liveEntries s).filter (LiveEntry.matchesFilter filter)).map f := by
  have hcandidates : candidates s (eligible s filter) = (liveSlots s).filter (eligible s filter) := by
    rw [candidates, liveSlots, List.filter_filter]
    apply List.filter_congr
    intro id _
    unfold eligible
    cases s.isLive id <;> simp
  have hmatches : (liveSlots s).filter (eligible s filter) = (liveSlots s).filter
      (LiveEntry.matchesFilter filter ∘ fun id => ⟨s.externalId id, s.get id, (s.metadata id).getD ∅⟩) := by
    apply List.filter_congr
    intro id hid
    exact eligible_of_isLive h filter ((mem_liveSlots h).mp hid)
  rw [hcandidates, hmatches, liveEntries, List.filter_map, List.map_map]
  rfl

end Scores

theorem exactScores_congr {s s' : VectorStore} (h : s.Ids) (h' : s'.Ids)
    (hentries : liveEntries s' = liveEntries s)
    (metric : Metric Score) (query : Vec) (filter : Option Filter) (k : Nat) :
    exactScores metric s' query (eligible s' filter) k =
      exactScores metric s query (eligible s filter) k := by
  have hscores := candidates_eligible h filter fun entry => metric.distance query entry.vec
  have hscores' := candidates_eligible h' filter fun entry => metric.distance query entry.vec
  rw [hentries, ← hscores] at hscores'
  rw [exactScores, exactScores, hscores']

theorem Wf.scores_congr (hwf : e.Wf cfg) (hwf' : e'.Wf cfg) (hkind : cfg.index = .flat)
    (hentries : liveEntries e'.store = liveEntries e.store) (query : Vec) (k : Nat)
    (filter : Option Filter) (ef : Nat) :
    (e'.search cfg query k filter ef).map (List.map SearchResult.score) =
      (e.search cfg query k filter ef).map (List.map SearchResult.score) := by
  by_cases hquery : query.length = cfg.dim.toNat
  · obtain ⟨hits, hsearch, -, hscores⟩ := hwf.search_flat hkind hquery k filter ef
    obtain ⟨hits', hsearch', -, hscores'⟩ := hwf'.search_flat hkind hquery k filter ef
    rw [hsearch, hsearch']
    show Except.ok (hits'.map SearchResult.score) = .ok (hits.map SearchResult.score)
    rw [hscores, hscores', exactScores_congr hwf.ids hwf'.ids hentries]
  · rw [search, search, if_pos (by rwa [hwf'.dim_eq]), if_pos (by rwa [hwf.dim_eq])]

/-- **Compaction preserves meaning.** In every state an engine reaches, compaction returns. The
content is as it was; every slot is live, and the j-th holds what the j-th live slot held before;
compacting again leaves store and index alone. A flat engine gives the same scores for every query,
or rejects it as before. The graph of an HNSW engine has a node for every entry and no other, and an
unfiltered search for something finds something. -/
theorem compaction_preserves_meaning (cfg : EngineConfig Score) (disk : Option Disk) (e₀ : Engine)
    (hcreate : create cfg disk = .ok e₀) (calls : List (IterOrder × Mutation)) (order : IterOrder) :
    ∃ c, (e₀.run cfg calls).compact cfg order = (.ok (), c) ∧
      c.store.content = (e₀.run cfg calls).store.content ∧
      c.store.size = (e₀.run cfg calls).store.size ∧ c.store.slotCount = c.store.size ∧
      (∀ (j id : Nat), (liveSlots (e₀.run cfg calls).store)[j]? = some id →
        c.store.isLive j = true ∧ c.store.externalId j = (e₀.run cfg calls).store.externalId id ∧
        c.store.get j = (e₀.run cfg calls).store.get id ∧
          c.store.metadata j = (e₀.run cfg calls).store.metadata id) ∧
      (∀ order', ∃ c', c.compact cfg order' = (.ok (), c') ∧ c'.store = c.store ∧ c'.index = c.index) ∧
      (cfg.index = .flat → ∀ query k filter ef,
        (c.search cfg query k filter ef).map (List.map SearchResult.score) =
          ((e₀.run cfg calls).search cfg query k filter ef).map (List.map SearchResult.score)) ∧
      (cfg.index = .hnsw → (∃ h, c.index = .hnsw h ∧ h.nodes.length = c.store.size ∧
          ∀ id < h.nodes.length, c.store.isLive id = true) ∧
        ∀ query k ef, query.length = cfg.dim.toNat → 1 ≤ k → 1 ≤ c.store.size →
          ∃ hits, c.search cfg query k none ef = .ok hits ∧ hits ≠ []) := by
  have hwf := (wf_of_create hcreate).run calls
  generalize e₀.run cfg calls = e at hwf ⊢
  obtain ⟨c, hrebuild, hwf', -, hcontent, hbuilt, hdense⟩ := hwf.rebuild_built
  refine ⟨c.snapshot order, by rw [compact, hrebuild], hcontent,
    size_congr hwf.ids hwf'.ids hcontent, hdense.size_eq.symm,
    fun j id hid => ?_, fun order' => ?_, fun hkind query k filter ef => ?_, fun hkind => ?_⟩
  · have hentry : (liveEntries e.store)[j]? =
        some ⟨e.store.externalId id, e.store.get id, (e.store.metadata id).getD ∅⟩ := by
      rw [liveEntries, List.getElem?_map, hid]
      rfl
    obtain ⟨hlt, hext, hget, hmeta⟩ := hdense.slot hentry
    have hlive := (mem_liveSlots hwf.ids).mp (List.mem_of_getElem? hid)
    refine ⟨hdense.isLive hlt, hext, hget, ?_⟩
    rw [metadata_eq hwf.ids (hwf.ids.lt_of_isLive hlive)]
    exact hmeta
  · -- compacting again starts from the same entries
    obtain ⟨c', hrebuild', -, -, -, hbuilt', -⟩ := (hwf'.snapshot order).rebuild_built
    rw [show liveEntries (c.snapshot order).store = liveEntries e.store from hdense.entries_eq] at hbuilt'
    have hsame := hbuilt.sameState hbuilt'
    exact ⟨c'.snapshot order', by rw [compact, hrebuild'], hsame.1, hsame.2⟩
  · exact hwf.scores_congr (hwf'.snapshot order) hkind hdense.entries_eq query k filter ef
  · obtain ⟨h, hindex, -, hlength⟩ := hwf'.hnsw hkind
    have hall : ∀ id < h.nodes.length, c.store.isLive id = true := fun id hid => hdense.isLive (hlength ▸ hid)
    refine ⟨⟨h, hindex, hlength.trans hdense.size_eq.symm, hall⟩, fun query k ef hquery hk hsize => ?_⟩
    have hslots : c.store.slotCount ≠ 0 := by
      rw [← hdense.size_eq]
      exact Nat.one_le_iff_ne_zero.mp hsize
    rw [(sameState_snapshot c order).search_eq]
    exact hwf'.search_ne_nil hindex hquery hk ef hslots fun best hbest => ⟨best, .refl, hall best hbest⟩

/-- Of the entries inserted, the first is erased and not compacted away yet. -/
theorem compaction_preserves_meaning_sample :
    ∃ c, ((⟨{ dim := 1 }, .hnsw {}, none⟩ : Engine).run (sampleConfig .hnsw ⟨1, 1, 64, fun n => n % 2⟩)
        (writes sessionCalls)).compact (sampleConfig .hnsw ⟨1, 1, 64, fun n => n % 2⟩) .byKey = (.ok (), c) ∧
      c.store.slotCount = 1 ∧ c.store.externalId 0 = ascii "b" := by
  obtain ⟨c, hcompact, -, hsize, hslots, hslot, -⟩ := compaction_preserves_meaning
    (sampleConfig .hnsw ⟨1, 1, 64, fun n => n % 2⟩) none _ rfl (writes sessionCalls) .byKey
  exact ⟨c, hcompact, hslots.trans (hsize.trans (by decide +kernel)),
    ((hslot 0 1 (by decide +kernel)).2.1).trans (by decide +kernel)⟩

/-! ### Compacting and reopening -/

section Reopen

omit [LinearOrder Score]

theorem snapshotData_congr {s s' : VectorStore} (h : s.Ids) (h' : s'.Ids)
    (hentries : liveEntries s' = liveEntries s)
    (order : IterOrder) : snapshotData s' order = snapshotData s order := by
  have hdata : ∀ {s : VectorStore}, s.Ids → snapshotData s order =
      ((liveEntries s).map LiveEntry.insertOp).flatMap fun op => snapshotFrame (encodeOp order op) := by
    intro s h
    rw [liveEntries_map_insertOp h, List.flatMap_map]
    rfl
  rw [hdata h, hdata h', hentries]

theorem mem_liveEntries {s : VectorStore} (h : s.Ids) {x : Bytes} {entry : Entry}
    (hx : s.content x = some entry) :
    ⟨x, entry.vec, entry.metadata⟩ ∈ liveEntries s := by
  obtain ⟨id, hid, rfl⟩ := Option.map_eq_some_iff.mp hx
  refine List.mem_map.mpr ⟨id, (mem_liveSlots h).mpr (VectorStore.resolve_eq_some_iff.mp hid).2, ?_⟩
  rw [externalId_of_resolve h hid]

end Reopen

/-- An engine built from its own entries is what is found where it has left a snapshot. -/
theorem Sane.create_snapshot (h : Sane cfg e) {disk : Disk} (hdisk : e.disk = some disk)
    (hbuilt : Built cfg (liveEntries e.store) e) (order : IterOrder) :
    create cfg (e.snapshot order).disk = .ok (e.snapshot order) := by
  obtain ⟨disk', hdisk', hon⟩ := (h.recorded_snapshot order hdisk).onDisk
  have hcreate := hon.create_eq_replay FileLogStore.next_nil h.wf.dim_ne
  have hreplay := replayOps_withDisk cfg ((liveEntries e.store).map LiveEntry.insertOp)
    ⟨{ dim := cfg.dim }, Index.new cfg, e.disk⟩ (some disk')
  rw [show List.foldlM (replayOp cfg) _ _ = .ok e from hbuilt] at hreplay
  rw [List.append_nil, snapshotRecs_op, ← liveEntries_map_insertOp h.wf.ids] at hcreate
  rw [hdisk', hcreate]
  refine hreplay.trans (congrArg Except.ok ?_)
  rw [← hdisk']
  rfl

/-- **Compaction and a restart from a snapshot agree.** Take any state of a durable engine, on
whatever directory it was opened and however it got there, in which the record of each live entry is
below 2^32 bytes. Compacting it, and instead taking a snapshot and opening the directory anew, give
the same store and the same index. The compacted engine is what opening its directory gives again,
so a restart changes no internal id and no search. -/
theorem compact_agrees_with_reopen (cfg : EngineConfig Score) (disk : Disk) (e₀ e : Engine)
    (hcreate : create cfg (some disk) = .ok e₀) (run : List (IterOrder × Step))
    (hsteps : e₀.steps cfg run = .ok e)
    (order order' : IterOrder) (hsmall : ∀ entry ∈ liveEntries e.store,
      (encodeOp order entry.insertOp).length < 2 ^ 32) :
    ∃ c r r', e.compact cfg order = (.ok (), c) ∧ create cfg (e.snapshot order').disk = .ok r ∧
      r.store = c.store ∧ r.index = c.index ∧ create cfg c.disk = .ok r' ∧ r'.store = c.store ∧
        r'.index = c.index ∧
      ∀ query k filter ef, r'.search cfg query k filter ef = c.search cfg query k filter ef := by
  have hopen : e₀.disk.isSome := by
    rw [disk_of_create hcreate]
    rfl
  obtain ⟨hwf, hdisk⟩ := (wf_of_create hcreate).steps hopen run hsteps
  obtain ⟨disk', hdisk⟩ := Option.isSome_iff_exists.mp hdisk
  obtain ⟨c, hrebuild, hwf', hsame, hcontent, hbuilt, hdense⟩ := hwf.rebuild_built
  have hsane : Sane cfg c := by
    refine ⟨hwf', hdense.wf, fun x entry hx => ?_⟩
    rw [smallEntry_iff order]
    rw [hcontent] at hx
    have hlength := hsmall _ (mem_liveEntries hwf.ids hx)
    rwa [length_encodeOp, if_neg fun htype => OpType.noConfusion htype] at hlength
  rw [← hdense.entries_eq] at hbuilt
  have hreopen := hsane.create_snapshot (hsame.trans hdisk) hbuilt
  -- the two snapshots are the same bytes
  have hsnapshot : (e.snapshot order').disk = (c.snapshot order').disk := by
    rw [snapshot, snapshot, truncateWal, truncateWal, putSnapshot, putSnapshot, hsame,
      snapshotData_congr hwf.ids hwf'.ids hdense.entries_eq]
  have hstate : SameState (c.snapshot order) (c.snapshot order') :=
    (sameState_snapshot c order).symm.trans (sameState_snapshot c order')
  refine ⟨c.snapshot order, c.snapshot order', c.snapshot order, by rw [compact, hrebuild], ?_,
    hstate.1, hstate.2,
    hreopen order, rfl, rfl, fun _ _ _ _ => rfl⟩
  rw [hsnapshot]
  exact hreopen order'

/-- Compacted or reopened from a snapshot, what is left is one node for the second entry. -/
theorem compact_agrees_with_reopen_sample :
    ∃ e c r, (fresh (sampleConfig .hnsw ⟨1, 1, 64, fun n => n % 2⟩) {}).steps
      (sampleConfig .hnsw ⟨1, 1, 64, fun n => n % 2⟩)
        (callSteps sessionCalls) = .ok e ∧
      e.compact (sampleConfig .hnsw ⟨1, 1, 64, fun n => n % 2⟩) .byKey = (.ok (), c) ∧
      create (sampleConfig .hnsw ⟨1, 1, 64, fun n => n % 2⟩) (e.snapshot .byKey).disk = .ok r ∧
      r.store.content (ascii "b") = some ⟨[0x41200000], ∅⟩ ∧ r.store.slotCount = 1 ∧
      ∃ h, r.index = .hnsw h ∧ h.entryPoint = some 0 ∧ h.nodes.length = 1 := by
  obtain ⟨c, r, _, hcompact, hreopen, hstore, hindex, -⟩ := compact_agrees_with_reopen
    (sampleConfig .hnsw ⟨1, 1, 64, fun n => n % 2⟩) {} _ _ rfl
    (callSteps sessionCalls) rfl .byKey .byKey (by decide +kernel)
  refine ⟨_, c, r, rfl, hcompact, hreopen, ?_⟩
  obtain rfl := congrArg Prod.snd hcompact
  rw [hstore, hindex]
  exact ⟨by decide +kernel, by decide +kernel, _, rfl, by decide +kernel⟩

end Engine

end ToyVdb
