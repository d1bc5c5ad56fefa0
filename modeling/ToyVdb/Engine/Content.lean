import ToyVdb.Engine.Compaction

/-!
# Searches and content

A flat engine finds what it finds by way of the slots, and which slot an entry has depends on all that happened before.
What is found does not: the live entries are the content in some order, so the scores of a search are determined by
the content, and so are the entries where no two of them are as close as each other.

This takes scores that can be compared: they are linearly ordered, and none is undefined.
-/

namespace ToyVdb

namespace Engine

open Outcome

deriving instance DecidableEq for LiveEntry

theorem map_eq_of_map_eq {α β γ δ : Type} {f : α → γ} {f' : β → γ} {g : α → δ} {g' : β → δ} {l : List α} {l' : List β}
    (h : l.map f = l'.map f') (hg : ∀ a ∈ l, ∀ b ∈ l', f a = f' b → g a = g' b) : l.map g = l'.map g' := by
  induction l generalizing l' with
  | nil =>
      rw [List.map_nil, eq_comm, List.map_eq_nil_iff] at h
      rw [h, List.map_nil, List.map_nil]
  | cons a l ih =>
      cases l' with
      | nil => cases h
      | cons b l' =>
          obtain ⟨hhead, htail⟩ := List.cons_eq_cons.mp h
          rw [List.map_cons, List.map_cons, hg a List.mem_cons_self b List.mem_cons_self hhead,
            ih htail fun a ha b hb => hg a (List.mem_cons_of_mem _ ha) b (List.mem_cons_of_mem _ hb)]

section Entries

variable {s s' : VectorStore}

theorem mem_liveEntries_iff (h : s.Ids) {entry : LiveEntry} :
    entry ∈ liveEntries s ↔ s.content entry.extId = some ⟨entry.vec, entry.metadata⟩ := by
  constructor
  · intro hentry
    obtain ⟨id, hid, rfl⟩ := List.mem_map.mp hentry
    exact VectorStore.content_of_resolve (resolve_externalId h ((mem_liveSlots h).mp hid))
  · exact mem_liveEntries h

theorem nodup_liveEntries (h : s.Ids) : (liveEntries s).Nodup := by
  have hids : ((liveEntries s).map LiveEntry.extId).Nodup := by
    rw [liveEntries, List.map_map]
    exact nodup_liveIds h
  exact hids.of_map _

/-- The order of the slots aside, the entries are the content. -/
theorem liveEntries_perm_iff (h : s.Ids) (h' : s'.Ids) :
    (liveEntries s).Perm (liveEntries s') ↔ s.content = s'.content := by
  rw [List.perm_ext_iff_of_nodup (nodup_liveEntries h) (nodup_liveEntries h')]
  constructor
  · intro hmem
    funext x
    refine Option.ext fun entry => ?_
    have hentry := hmem ⟨x, entry.vec, entry.metadata⟩
    rwa [mem_liveEntries_iff h, mem_liveEntries_iff h'] at hentry
  · intro hcontent entry
    rw [mem_liveEntries_iff h, mem_liveEntries_iff h', hcontent]

end Entries

variable {Score : Type} [LinearOrder Score] {cfg : EngineConfig Score} {e e' : Engine} {s s' : VectorStore}

theorem exactScores_eq_of_content (h : s.Ids) (h' : s'.Ids)
    (hcontent : s.content = s'.content) (metric : Metric Score) (query : Vec) (filter : Option Filter) (k : Nat) :
    exactScores metric s query (eligible s filter) k = exactScores metric s' query (eligible s' filter) k := by
  have hscores := candidates_eligible h filter fun entry => metric.distance query entry.vec
  have hscores' := candidates_eligible h' filter fun entry => metric.distance query entry.vec
  have hperm := ((((liveEntries_perm_iff h h').mpr hcontent).filter (LiveEntry.matchesFilter filter)).map
    fun entry => metric.distance query entry.vec)
  rw [← hscores, ← hscores'] at hperm
  have hsorted := ((List.perm_insertionSort (· ≤ ·) _).trans hperm).trans (List.perm_insertionSort (· ≤ ·) _).symm
  exact congrArg (List.take k)
    (hsorted.eq_of_sortedLE List.sortedLE_insertionSort List.sortedLE_insertionSort)

/-- No two entries of the content that match are as close as each other. -/
def NoTies (metric : Metric Score) (content : Bytes → Option Entry) (query : Vec) (filter : Option Filter) : Prop :=
  ∀ x y entry entry', content x = some entry → content y = some entry' →
    LiveEntry.matchesFilter filter ⟨x, entry.vec, entry.metadata⟩ = true →
    LiveEntry.matchesFilter filter ⟨y, entry'.vec, entry'.metadata⟩ = true →
    metric.distance query entry.vec = metric.distance query entry'.vec → x = y

theorem content_of_eligible (h : s.Ids) {filter : Option Filter} {id : Nat} (hid : eligible s filter id = true) :
    s.content (s.externalId id) = some ⟨s.get id, (s.metadata id).getD ∅⟩ ∧
      LiveEntry.matchesFilter filter ⟨s.externalId id, s.get id, (s.metadata id).getD ∅⟩ = true := by
  have hlive : s.isLive id = true := (Bool.and_eq_true_iff.mp hid).1
  exact ⟨VectorStore.content_of_resolve (resolve_externalId h hlive), eligible_of_isLive h filter hlive ▸ hid⟩

omit [LinearOrder Score] in
theorem NoTies.externalId_eq {metric : Metric Score} {query : Vec} {filter : Option Filter} (h : s.Ids)
    (h' : s'.Ids) (hcontent : s.content = s'.content) (hties : NoTies metric s.content query filter) {id id' : Nat}
    (hid : eligible s filter id = true) (hid' : eligible s' filter id' = true)
    (hdistance : metric.distance query (s.get id) = metric.distance query (s'.get id')) :
    s.externalId id = s'.externalId id' := by
  obtain ⟨hentry, hmatches⟩ := content_of_eligible h hid
  obtain ⟨hentry', hmatches'⟩ := content_of_eligible h' hid'
  exact hties _ _ _ _ hentry (hcontent ▸ hentry') hmatches hmatches' hdistance

/-- **Flat search is a function of the content.** Over linearly ordered scores, two flat engines, opened on whatever
directories and after whatever calls, that hold the same content return the same scores for every query, number of hits and filter, and the same
entries in the same order where no two matching entries are as close as each other. -/
theorem flat_search_depends_on_content (cfg : EngineConfig Score) (hkind : cfg.index = .flat)
    (disk disk' : Option Disk) (e₀ e₀' : Engine) (hcreate : create cfg disk = .ok e₀)
    (hcreate' : create cfg disk' = .ok e₀') (calls calls' : List (IterOrder × Mutation))
    (hcontent : (e₀.run cfg calls).store.content = (e₀'.run cfg calls').store.content) (query : Vec)
    (hquery : query.length = cfg.dim.toNat) (k ef ef' : Nat) (filter : Option Filter) :
    ∃ hits hits', (e₀.run cfg calls).search cfg query k filter ef = .ok hits ∧
      (e₀'.run cfg calls').search cfg query k filter ef' = .ok hits' ∧
      hits.map SearchResult.score = hits'.map SearchResult.score ∧
      (NoTies cfg.metric (e₀.run cfg calls).store.content query filter →
        hits.map (fun hit => (e₀.run cfg calls).store.externalId hit.id) =
          hits'.map fun hit => (e₀'.run cfg calls').store.externalId hit.id) := by
  have hwf := (wf_of_create hcreate).run calls
  have hwf' := (wf_of_create hcreate').run calls'
  obtain ⟨hits, hsearch, hexact, hscores⟩ := hwf.search_flat hkind hquery k filter ef
  obtain ⟨hits', hsearch', hexact', hscores'⟩ := hwf'.search_flat hkind hquery k filter ef'
  have hsame : hits.map SearchResult.score = hits'.map SearchResult.score := by
    rw [hscores, hscores', exactScores_eq_of_content hwf.ids hwf'.ids hcontent]
  refine ⟨hits, hits', hsearch, hsearch', hsame, fun hties => map_eq_of_map_eq hsame fun hit hhit hit' hhit' heq => ?_⟩
  rw [hexact.score_eq hit hhit, hexact'.score_eq hit' hhit'] at heq
  exact hties.externalId_eq hwf.ids hwf'.ids hcontent (hexact.admitted hit hhit) (hexact'.admitted hit' hhit') heq

/-- The same content, put together in another order. -/
def shortCalls : List (IterOrder × Mutation) :=
  [.write (.insert (ascii "b") [0xC0800000] ∅), .write (.insert (ascii "a") [0x41200000] ∅)].map
    fun m => (IterOrder.byKey, m)

theorem flat_search_depends_on_content_sample :
    ∃ hits hits', ((⟨{ dim := 1 }, .flat {}, none⟩ : Engine).run (sampleConfig .flat ⟨1, 1, 64, fun _ => 0⟩)
        sampleCalls).search (sampleConfig .flat ⟨1, 1, 64, fun _ => 0⟩) [0] 2 none 0 = .ok hits ∧
      ((⟨{ dim := 1 }, .flat {}, none⟩ : Engine).run (sampleConfig .flat ⟨1, 1, 64, fun _ => 0⟩)
        shortCalls).search (sampleConfig .flat ⟨1, 1, 64, fun _ => 0⟩) [0] 2 none 0 = .ok hits' ∧
      hits.length = 2 ∧ hits.map SearchResult.score = hits'.map SearchResult.score := by
  have hcreate : create (sampleConfig .flat ⟨1, 1, 64, fun _ => 0⟩) none = .ok ⟨{ dim := 1 }, .flat {}, none⟩ := rfl
  have hcontent := (liveEntries_perm_iff ((wf_of_create hcreate).run sampleCalls).ids
    ((wf_of_create hcreate).run shortCalls).ids).mp (by decide +kernel)
  obtain ⟨hits, hits', hsearch, hsearch', hscores, -⟩ := flat_search_depends_on_content
    (sampleConfig .flat ⟨1, 1, 64, fun _ => 0⟩) rfl none none _ _ hcreate hcreate sampleCalls shortCalls hcontent
    [0] rfl 2 0 0 none
  refine ⟨hits, hits', hsearch, hsearch', ?_, hscores⟩
  cases hsearch
  decide +kernel

end Engine

end ToyVdb
