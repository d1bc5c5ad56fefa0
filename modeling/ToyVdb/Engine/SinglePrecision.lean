import ToyVdb.Engine.Embedding
import ToyVdb.Index.SinglePrecision

/-!
# Searches in single precision

The engine with the metrics the source has, in single precision. As long as the components that come in suit the
metric, it does what an engine over linearly ordered scores does: flat searches are exact and graph searches sound,
by the scores as the source computes them. For the squared distance the error of a score then bounds how much
closer anything left out can be.
-/

namespace ToyVdb

open Ieee

namespace Engine

variable {kind : MetricKind} {cfg : EngineConfig Float32}

/-- The configuration, with scores in a linear order. -/
noncomputable def ordered (kind : MetricKind) (cfg : EngineConfig Float32) :
    EngineConfig (Number kind.missingZero) :=
  ⟨cfg.dim, kind.ordered, cfg.index, cfg.hnsw⟩

theorem ordered_embeds (hmetric : cfg.metric = kind.metric) :
    (ordered kind cfg).Embeds cfg Number.float kind.Suits where
  dim_eq := rfl
  index_eq := rfl
  hnsw_eq := rfl
  metric := by
    rw [hmetric]
    exact kind.ordered_embeds

/-- The same state, in which everything stored suits the metric. -/
theorem run_ordered (hmetric : cfg.metric = kind.metric) {disk : Option Disk}
    (hdisk : ∀ d ∈ disk, d.AllIn kind.Suits) {e₀ : Engine} (hcreate : create cfg disk = .ok e₀)
    {calls : List (IterOrder × Mutation)} (hcalls : ∀ call ∈ calls, call.2.AllIn kind.Suits) :
    create (ordered kind cfg) disk = .ok e₀ ∧ e₀.run (ordered kind cfg) calls = e₀.run cfg calls ∧
      (e₀.run cfg calls).store.AllIn kind.Suits := by
  obtain ⟨hopen, hstore⟩ := create_eq (ordered_embeds hmetric) disk hdisk
  rw [hcreate] at hopen
  obtain ⟨hrun, hstore'⟩ := run_eq (ordered_embeds hmetric) (hstore e₀ hopen) calls hcalls
  rw [hrun] at hstore'
  exact ⟨hopen, hrun, hstore'⟩

/-- **Flat search is exact in single precision.** A flat engine with one of the source's metrics, opened on any
directory and after any calls, finds the k eligible slots whose scores, as the source computes them, are the least,
closest first, and nothing it leaves out has a lesser score; provided the components on disk, in the calls and in
the query are finite, and for the metrics made of products at most `2 ^ 51`. -/
theorem flat_search_is_exact_in_floats (kind : MetricKind) (cfg : EngineConfig Float32)
    (hmetric : cfg.metric = kind.metric) (hkind : cfg.index = .flat) (disk : Option Disk)
    (hdisk : ∀ d ∈ disk, d.AllIn kind.Suits) (e₀ : Engine) (hcreate : create cfg disk = .ok e₀)
    (calls : List (IterOrder × Mutation)) (hcalls : ∀ call ∈ calls, call.2.AllIn kind.Suits) (query : Vec)
    (hsuits : ∀ x ∈ query, kind.Suits x) (hquery : query.length = cfg.dim.toNat) (k ef : Nat)
    (filter : Option Filter) :
    ∃ hits, (e₀.run cfg calls).search cfg query k filter ef = .ok hits ∧
      ExactNumbers kind.metric (e₀.run cfg calls).store query (eligible (e₀.run cfg calls).store filter) k hits := by
  obtain ⟨hopen, hrun, hstore⟩ := run_ordered hmetric hdisk hcreate hcalls
  have hwf := (wf_of_create hopen).run calls
  rw [hrun] at hwf
  obtain ⟨hits, hsearch, hexact, -⟩ := hwf.search_flat hkind hquery k filter ef
  refine ⟨hits.map (SearchResult.map Number.float), ?_, hexact.numbers hstore hsuits⟩
  rw [← search_map (ordered_embeds hmetric) hstore hsuits, hsearch]
  rfl

/-- Two entries and an erasure; a third vector is rejected, being of the wrong length. -/
def floatCalls : List (IterOrder × Mutation) :=
  [.write (.insert (ascii "a") [0x3F800000, 0x40490FDB] ∅), .write (.insert (ascii "b") [0x3DCCCCCD, 0xC0400000] ∅),
    .write (.insert (ascii "c") [0] ∅), .write (.erase (ascii "a"))].map fun m => (IterOrder.byKey, m)

/-- An engine over two components. -/
def floatConfig (metric : MetricKind) (kind : IndexKind) : EngineConfig Float32 :=
  ⟨2, metric.metric, kind, ⟨1, 1, 64, fun n => n % 2⟩⟩

theorem flat_search_is_exact_in_floats_sample :
    ∃ hits, ((⟨{ dim := 2 }, .flat {}, none⟩ : Engine).run (floatConfig .cosine .flat) floatCalls).search
      (floatConfig .cosine .flat) [0x3F800000, 0] 5 none 0 = .ok hits ∧ hits.map SearchResult.id = [1] ∧
        ∀ hit ∈ hits, hit.score.isNaN = false := by
  have hquery : ∀ x ∈ [0x3F800000, 0], MetricKind.cosine.Suits x := by
    rw [List.forall_mem_cons, List.forall_mem_singleton]
    decide +kernel
  obtain ⟨hits, hsearch, hexact⟩ := flat_search_is_exact_in_floats .cosine (floatConfig .cosine .flat) rfl rfl none
    (fun _ h => nomatch h) ⟨{ dim := 2 }, .flat {}, none⟩ rfl floatCalls (by decide +kernel) [0x3F800000, 0] hquery
    rfl 5 0 none
  have hids : ((((⟨{ dim := 2 }, .flat {}, none⟩ : Engine).run (floatConfig .cosine .flat) floatCalls).search
      (floatConfig .cosine .flat) [0x3F800000, 0] 5 none 0).map (List.map SearchResult.id)) = .ok [1] := by
    decide +kernel
  rw [hsearch] at hids
  exact ⟨hits, hsearch, Except.ok.inj hids, hexact.number⟩

/-- **Graph search is sound in single precision.** A graph engine with one of the source's metrics, opened on any
directory and after any calls, returns distinct eligible slots with their current scores, as the source computes
them, closest first; rank by rank they are no closer than what a scan of all slots returns. The components are those
the metric suits. -/
theorem hnsw_search_is_sound_in_floats (kind : MetricKind) (cfg : EngineConfig Float32)
    (hmetric : cfg.metric = kind.metric) (hkind : cfg.index = .hnsw) (disk : Option Disk)
    (hdisk : ∀ d ∈ disk, d.AllIn kind.Suits) (e₀ : Engine) (hcreate : create cfg disk = .ok e₀)
    (calls : List (IterOrder × Mutation)) (hcalls : ∀ call ∈ calls, call.2.AllIn kind.Suits) (query : Vec)
    (hsuits : ∀ x ∈ query, kind.Suits x) (hquery : query.length = cfg.dim.toNat) (k ef : Nat)
    (filter : Option Filter) :
    ∃ hits scan, (e₀.run cfg calls).search cfg query k filter ef = .ok hits ∧
      SoundNumbers kind.metric (e₀.run cfg calls).store query (eligible (e₀.run cfg calls).store filter) hits ∧
      hits.length ≤ k ∧
      FlatIndex.search cfg.metric (e₀.run cfg calls).store ⟨List.range (e₀.run cfg calls).store.slotCount⟩ query k
        (searchParams (e₀.run cfg calls).store filter ef) = .ok scan ∧
      ∀ (i : Nat) (hit : SearchResult Float32), hits[i]? = some hit →
        ∃ best : SearchResult Float32, scan[i]? = some best ∧ toReal best.score ≤ toReal hit.score := by
  obtain ⟨hopen, hrun, hstore⟩ := run_ordered hmetric hdisk hcreate hcalls
  have hwf := (wf_of_create hopen).run calls
  rw [hrun] at hwf
  obtain ⟨hits, hsearch, hsound, hlength, -⟩ := hwf.search_hnsw hkind hquery k filter ef
  obtain ⟨scan, hscan, -, hscores⟩ := FlatIndex.search_exact (ordered kind cfg).metric query
    (searchParams (e₀.run cfg calls).store filter ef) List.nodup_range
    (fun id hid => List.mem_range.mpr (hwf.ids.lt_of_isLive (Bool.and_eq_true_iff.mp hid).1))
    (fun id hid => hwf.ids.lt_of_isLive hid) k
  refine ⟨hits.map (SearchResult.map Number.float), scan.map (SearchResult.map Number.float), ?_,
    hsound.numbers hstore hsuits, ?_, ?_, fun i hit hhit => ?_⟩
  · rw [← search_map (ordered_embeds hmetric) hstore hsuits, hsearch]
    rfl
  · rwa [List.length_map]
  · exact (FlatIndex.search_map (ordered_embeds hmetric).metric hstore hsuits _ k _).symm.trans
      (congrArg (Except.map (List.map (SearchResult.map Number.float))) hscan)
  · rw [List.getElem?_map, Option.map_eq_some_iff] at hhit
    obtain ⟨hit, hhit, rfl⟩ := hhit
    obtain ⟨score, hscore, hle⟩ :=
      hsound.exactScores_le (fun id hid => eligible_lt hwf.ids hid) hlength hhit
    rw [admits_searchParams hwf.ids] at hscores
    rw [← hscores, List.getElem?_map, Option.map_eq_some_iff] at hscore
    obtain ⟨best, hbest, rfl⟩ := hscore
    refine ⟨best.map Number.float, ?_, (Number.le_iff _ _).mp hle⟩
    rw [List.getElem?_map, hbest]
    rfl

theorem hnsw_search_is_sound_in_floats_sample :
    ∃ hits, ((⟨{ dim := 2 }, .hnsw {}, none⟩ : Engine).run (floatConfig .dot .hnsw) floatCalls).search
      (floatConfig .dot .hnsw) [0x3F800000, 0] 5 none 0 = .ok hits ∧ hits.length = 1 ∧
        ∀ hit ∈ hits, hit.score.isNaN = false := by
  have hquery : ∀ x ∈ [0x3F800000, 0], MetricKind.dot.Suits x := by
    rw [List.forall_mem_cons, List.forall_mem_singleton]
    decide +kernel
  obtain ⟨hits, _, hsearch, hsound, -⟩ := hnsw_search_is_sound_in_floats .dot (floatConfig .dot .hnsw) rfl
    rfl none (fun _ h => nomatch h) ⟨{ dim := 2 }, .hnsw {}, none⟩ rfl floatCalls (by decide +kernel) [0x3F800000, 0]
    hquery rfl 5 0 none
  have hlength : ((((⟨{ dim := 2 }, .hnsw {}, none⟩ : Engine).run (floatConfig .dot .hnsw) floatCalls).search
      (floatConfig .dot .hnsw) [0x3F800000, 0] 5 none 0).map List.length) = .ok 1 := by decide +kernel
  rw [hsearch] at hlength
  exact ⟨hits, hsearch, Except.ok.inj hlength, hsound.number⟩

/-! ### Nearest neighbours -/

/-- **Flat search is nearly exact.** Over finite components, each hit of a flat engine over squared distances whose
score is finite is, but for the rounding of scores, the closest of all eligible slots that are not returned before it:
no other has an exact squared distance that is less by more than the errors of two scores. -/
theorem flat_search_is_nearly_exact (cfg : EngineConfig Float32) (hmetric : cfg.metric = MetricKind.l2.metric)
    (hkind : cfg.index = .flat) (disk : Option Disk) (hdisk : ∀ d ∈ disk, d.AllIn IsFinite) (e₀ : Engine)
    (hcreate : create cfg disk = .ok e₀) (calls : List (IterOrder × Mutation))
    (hcalls : ∀ call ∈ calls, call.2.AllIn IsFinite) (query : Vec) (hsuits : ∀ x ∈ query, IsFinite x)
    (hquery : query.length = cfg.dim.toNat) (k ef : Nat) (filter : Option Filter) :
    ∃ hits, (e₀.run cfg calls).search cfg query k filter ef = .ok hits ∧
      ∀ (i : Nat) (hit : SearchResult Float32), hits[i]? = some hit → hit.score.isInf = false →
        ∀ id, eligible (e₀.run cfg calls).store filter id = true → id ∉ (hits.take i).map SearchResult.id →
          (1 - 1 / 2 ^ 24) ^ (query.length + 2) *
              (squaredDistance query ((e₀.run cfg calls).store.get hit.id) / 2 ^ 298 : ℝ) ≤
            (1 + 1 / 2 ^ 24) ^ (query.length + 2) *
              (squaredDistance query ((e₀.run cfg calls).store.get id) / 2 ^ 298 + query.length / 2 ^ 150) +
                query.length / 2 ^ 150 := by
  obtain ⟨hopen, hrun, hstore⟩ := @run_ordered .l2 cfg hmetric disk hdisk e₀ hcreate calls hcalls
  have hwf := (wf_of_create hopen).run calls
  rw [hrun] at hwf
  obtain ⟨hits, hsearch, hexact, -⟩ := hwf.search_flat hkind hquery k filter ef
  have hnumbers := hexact.numbers hstore hsuits
  refine ⟨hits.map (SearchResult.map Number.float), ?_, fun i hit hhit hfinite id hid hlater => ?_⟩
  · rw [← search_map (ordered_embeds hmetric) hstore hsuits, hsearch]
    rfl
  · have hle := hnumbers.le_of_not_mem_take hhit hid hlater
    have hscore : hit.score = L2.distance query ((e₀.run cfg calls).store.get hit.id) :=
      hnumbers.score_eq hit (List.mem_of_getElem? hhit)
    rw [hscore] at hle hfinite
    obtain ⟨-, hlow⟩ := L2.distance_error query ((e₀.run cfg calls).store.get hit.id) hsuits (hstore.get hit.id)
    obtain ⟨hhigh, -⟩ := L2.distance_error query ((e₀.run cfg calls).store.get id) hsuits (hstore.get id)
    exact sub_le_iff_le_add.mp ((hlow hfinite).trans (hle.trans hhigh))

/-- With both entries live, the second is the first hit, and no further away than the first but for the rounding. -/
theorem flat_search_is_nearly_exact_sample :
    ∃ hits hit, ((⟨{ dim := 2 }, .flat {}, none⟩ : Engine).run (floatConfig .l2 .flat) (floatCalls.take 2)).search
      (floatConfig .l2 .flat) [0x3F800000, 0] 5 none 0 = .ok hits ∧ hits[0]? = some hit ∧ hit.id = 1 ∧
        (1 - 1 / 2 ^ 24) ^ 4 * (squaredDistance [0x3F800000, 0] (((⟨{ dim := 2 }, .flat {}, none⟩ : Engine).run
            (floatConfig .l2 .flat) (floatCalls.take 2)).store.get hit.id) / 2 ^ 298 : ℝ) ≤
          (1 + 1 / 2 ^ 24) ^ 4 * (squaredDistance [0x3F800000, 0] [0x3F800000, 0x40490FDB] / 2 ^ 298 + 2 / 2 ^ 150) +
            2 / 2 ^ 150 := by
  have hquery : ∀ x ∈ [0x3F800000, 0], IsFinite x := by
    rw [List.forall_mem_cons, List.forall_mem_singleton]
    decide +kernel
  obtain ⟨hits, hsearch, hnear⟩ := flat_search_is_nearly_exact (floatConfig .l2 .flat) rfl rfl none
    (fun _ h => nomatch h) ⟨{ dim := 2 }, .flat {}, none⟩ rfl (floatCalls.take 2) (by decide +kernel) [0x3F800000, 0]
    hquery rfl 5 0 none
  have hfirst : (((⟨{ dim := 2 }, .flat {}, none⟩ : Engine).run (floatConfig .l2 .flat) (floatCalls.take 2)).search
      (floatConfig .l2 .flat) [0x3F800000, 0] 5 none 0).map
        (fun hits => hits[0]?.map fun hit => (hit.id, hit.score.isInf)) = .ok (some (1, false)) := by
    decide +kernel
  rw [hsearch] at hfirst
  obtain ⟨hit, hhit, heq⟩ := Option.map_eq_some_iff.mp (Except.ok.inj hfirst)
  obtain ⟨hid, hfinite⟩ := Prod.mk.inj heq
  exact ⟨hits, hit, hsearch, hhit, hid, hnear 0 hit hhit hfinite 0 rfl List.not_mem_nil⟩

end Engine

end ToyVdb
