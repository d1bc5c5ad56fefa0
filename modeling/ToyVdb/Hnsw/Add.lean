import ToyVdb.Hnsw.Graph

/-!
# Insertion

`add` ends, stays inside its arrays and keeps the graph invariant. Beside that, `BaseLinked` says what it
does to layer 0, the layer every node is on and every query ends on: which nodes the new one is linked to,
what becomes of their lists, and when there is at least one.
-/

namespace ToyVdb

namespace HnswIndex

open Outcome Relation

variable {Score : Type} {h h₀ : HnswIndex} {params : HnswParams} {metric : Metric Score}
  {s : VectorStore} {q : Vec} {id : Nat}

/-! ### One layer -/

/-- What an insertion does to layer 0 of the graph it started with. -/
structure BaseLinked (params : HnswParams) (s : VectorStore) (h₀ h : HnswIndex) (id entry : Nat)
    (nbs : List Nat) : Prop where
  self : h.links? id 0 = some nbs
  neighbor : ∀ b ∈ nbs, ∃ ls ls', h₀.links? b 0 = some ls ∧ h.links? b 0 = some ls' ∧
    Pruned (maxLinks params 0) (ls ++ [id]) ls'
  other : ∀ i, i ≠ id → i ∉ nbs → h.links? i 0 = h₀.links? i 0
  nonempty : 0 < params.M → 0 < params.efConstruction →
    (∃ i, h₀.Reaches 0 entry i ∧ s.isLive i = true) → nbs ≠ []

/-- The loop invariant of an insertion, with the layers still to be linked. -/
structure AddInv (params : HnswParams) (metric : Metric Score) (s : VectorStore) (q : Vec) (id : Nat)
    (h₀ : HnswIndex) (rest : List Nat) (st : HnswIndex × List (Cand Score) × Visited) : Prop where
  links : LinksInv params st.1
  frame : Frame h₀ st.1
  descending : rest.Pairwise (· > ·)
  untouched : ∀ lc ∈ rest, ∀ i, st.1.links? i lc = h₀.links? i lc
  measured : ∀ e ∈ st.2.1, Measured metric s q e
  entry_ne : ∀ e ∈ st.2.1, e.id ≠ id
  entry_level : ∀ e ∈ st.2.1, ∃ lv, h₀.level? e.id = some lv ∧ ∀ lc ∈ rest, lc ≤ lv
  entry_nodup : (st.2.1.map Cand.id).Nodup
  entry_some : st.2.1 ≠ []
  wf : st.2.2.Wf
  stamps : h₀.nodes.length ≤ st.2.2.stamp.length
  base : 0 ∈ rest ∨ rest = [] ∧ ∃ entry nbs, entry ≠ id ∧ entry < h₀.nodes.length ∧ id ∉ nbs ∧
    BaseLinked params s h₀ st.1 id entry nbs

/-- The new node before it is linked: it has its layers, with no links in them and none to it. -/
structure Unlinked (h₀ : HnswIndex) (id level : Nat) : Prop where
  level_eq : h₀.level? id = some level
  empty : ∀ l, l ≤ level → h₀.links? id l = some []
  no_edge : ∀ l i, ¬ h₀.Edge l i id

theorem reaches_congr {h' : HnswIndex} {l : Nat} (heq : ∀ i, h'.links? i l = h.links? i l) {i j : Nat} :
    h'.Reaches l i j ↔ h.Reaches l i j := by
  have hedge : h'.Edge l = h.Edge l := by
    funext i j
    simp only [Edge, heq]
  rw [Reaches, Reaches, hedge]

/-- What a search of a layer finds: not the new node, and only nodes that have the layer. -/
theorem found_of_fromEntries {st : HnswIndex} {entries : List (Cand Score)} {lc : Nat}
    (hlinks : LinksInv params st)
    (hframe : Frame h₀ st) (hno : ∀ i, ¬ st.Edge lc i id) (hne : ∀ e ∈ entries, e.id ≠ id)
    (hlevel : ∀ e ∈ entries, ∃ lv, h₀.level? e.id = some lv ∧ lc ≤ lv) {i : Nat}
    (hi : st.FromEntries entries lc i) : i ≠ id ∧ ∃ lv, h₀.level? i = some lv ∧ lc ≤ lv := by
  obtain ⟨e, he, hreach⟩ := hi
  obtain ⟨lv, hlv, hle⟩ := hlevel e he
  rw [← hframe.level?_eq] at hlv
  constructor
  · cases hreach with
    | refl => exact hne e he
    | tail _ hedge => exact fun heq => hno _ (heq ▸ hedge)
  · obtain ⟨lv', hlv', hle'⟩ := hlinks.level_of_reaches hlv hle (Nat.le_refl lc) hreach
    exact ⟨lv', hframe.level?_eq i ▸ hlv', hle'⟩

theorem mem_entries_or {entries w : List (Cand Score)} {c : Cand Score}
    (hc : c ∈ if w.isEmpty then entries else w) : c ∈ entries ∨ c ∈ w := by
  split_ifs at hc
  · exact .inl hc
  · exact .inr hc

theorem searched_ne_nil {g : HnswIndex} {entries w : List (Cand Score)} {ef lc i : Nat} {vis : Visited}
    (hsearched : Searched g metric s q entries ef lc none w vis) (hef : 0 < ef)
    (hi : g.FromEntries entries lc i)
    (hlive : s.isLive i = true) : w ≠ [] := by
  intro hnil
  subst hnil
  have hallow : s.admits none i = true := by rw [VectorStore.admits, hlive]; rfl
  exact absurd (hsearched.complete hef i hi hallow) List.not_mem_nil

section Layer

variable {lc level ef : Nat} {rest : List Nat} {g g' : HnswIndex}
  {entries w neighbors : List (Cand Score)} {vis vis' : Visited}
  (hinv : AddInv params metric s q id h₀ (lc :: rest) (g, entries, vis)) (hnew : Unlinked h₀ id level)

include hinv

theorem AddInv.below : ∀ lc' ∈ rest, lc' < lc := fun _ hlc' => List.rel_of_pairwise_cons hinv.descending hlc'

theorem AddInv.entry_lt {e : Cand Score} (he : e ∈ entries) : e.id < g.nodes.length := by
  obtain ⟨lv, hlv, -⟩ := hinv.entry_level e he
  rw [show g.nodes.length = h₀.nodes.length from hinv.frame.length_eq]
  exact lt_of_level? hlv

theorem AddInv.base_next (hsearched : Searched g metric s q entries ef lc none w vis')
    (hlinked : Linked g g' id lc (neighbors.map Cand.id) (maxLinks params lc))
    (hfresh : id ∉ neighbors.map Cand.id) (hef : ef = params.efConstruction)
    (hnonempty : 0 < params.M → w ≠ [] → neighbors ≠ []) :
    0 ∈ rest ∨ rest = [] ∧ ∃ entry nbs, entry ≠ id ∧ entry < h₀.nodes.length ∧ id ∉ nbs ∧
      BaseLinked params s h₀ g' id entry nbs := by
  have huntouched := hinv.untouched lc List.mem_cons_self
  have hzero : 0 ∈ lc :: rest := hinv.base.resolve_right fun hnil => List.cons_ne_nil lc rest hnil.1
  cases List.mem_cons.mp hzero with
  | inr hrest => exact .inl hrest
  | inl hlast =>
      subst hlast
      have hrest : rest = [] := List.eq_nil_iff_forall_not_mem.mpr
        fun lc' hlc' => Nat.not_lt_zero lc' (hinv.below lc' hlc')
      obtain ⟨e, he⟩ := List.exists_mem_of_ne_nil _ hinv.entry_some
      have hlt : e.id < h₀.nodes.length := by
        rw [← hinv.frame.length_eq]
        exact hinv.entry_lt he
      refine .inr ⟨hrest, e.id, _, hinv.entry_ne e he, hlt, hfresh, hlinked.self, fun b hb => ?_,
        fun i hi hmem => ?_,
        fun hM hpos hlive => ?_⟩
      · obtain ⟨ls, ls', hls, hls', hpruned⟩ := hlinked.neighbor b hb
        exact ⟨ls, ls', (huntouched b).symm.trans hls, hls', hpruned⟩
      · rw [hlinked.other i 0 fun hin => hin.2.elim hi hmem, huntouched i]
      · obtain ⟨i, hreach, hlive⟩ := hlive
        have hfrom : g.FromEntries entries 0 i := ⟨e, he, (reaches_congr huntouched).mpr hreach⟩
        intro hnil
        exact hnonempty hM (searched_ne_nil hsearched (hef ▸ hpos) hfrom hlive) (List.map_eq_nil_iff.mp hnil)

include hnew

theorem AddInv.no_edge (i : Nat) : ¬ g.Edge lc i id := by
  rintro ⟨ls, hls, hmem⟩
  exact hnew.no_edge lc i ⟨ls, (hinv.untouched lc List.mem_cons_self i).symm.trans hls, hmem⟩

variable (hsearched : Searched g metric s q entries ef lc none w vis')

include hsearched

theorem AddInv.found : ∀ c ∈ w, c.id ≠ id ∧ ∃ lv, h₀.level? c.id = some lv ∧ lc ≤ lv := by
  have hlevel : ∀ e ∈ entries, ∃ lv, h₀.level? e.id = some lv ∧ lc ≤ lv := fun e he => by
    obtain ⟨lv, hlv, hle⟩ := hinv.entry_level e he
    exact ⟨lv, hlv, hle lc List.mem_cons_self⟩
  intro c hc
  exact found_of_fromEntries hinv.links hinv.frame (hinv.no_edge hnew) hinv.entry_ne hlevel
    (hsearched.result c hc).found

/-- The invariant after a layer is linked; the next search enters where this one ended. -/
theorem AddInv.next (hframe : Frame g g') (hlinks : LinksInv params g')
    (hother : ∀ i l, l ≠ lc → g'.links? i l = g.links? i l)
    (hbase : 0 ∈ rest ∨ rest = [] ∧ ∃ entry nbs, entry ≠ id ∧ entry < h₀.nodes.length ∧ id ∉ nbs ∧
      BaseLinked params s h₀ g' id entry nbs) :
    AddInv params metric s q id h₀ rest (g', if w.isEmpty then entries else w, vis') where
  links := hlinks
  frame := hinv.frame.trans hframe
  descending := hinv.descending.of_cons
  untouched lc' hlc' i := by
    rw [hother i lc' (hinv.below lc' hlc').ne]
    exact hinv.untouched lc' (List.mem_cons_of_mem _ hlc') i
  measured e he := by
    rcases mem_entries_or he with he | he
    · exact hinv.measured e he
    · exact (hsearched.result e he).measured
  entry_ne e he := by
    rcases mem_entries_or he with he | he
    · exact hinv.entry_ne e he
    · exact (hinv.found hnew hsearched e he).1
  entry_level e he := by
    rcases mem_entries_or he with he | he
    · obtain ⟨lv, hlv, hle⟩ := hinv.entry_level e he
      exact ⟨lv, hlv, fun lc' hlc' => hle lc' (List.mem_cons_of_mem _ hlc')⟩
    · obtain ⟨-, lv, hlv, hle⟩ := hinv.found hnew hsearched e he
      exact ⟨lv, hlv, fun lc' hlc' => (hinv.below lc' hlc').le.trans hle⟩
  entry_nodup := by
    show ((if w.isEmpty then entries else w).map Cand.id).Nodup
    split_ifs
    · exact hinv.entry_nodup
    · exact hsearched.nodup
  entry_some := by
    show (if w.isEmpty then entries else w) ≠ []
    split_ifs with hempty
    · exact hinv.entry_some
    · simpa using hempty
  wf := hsearched.wf
  stamps := hinv.frame.length_eq ▸ hsearched.stamps
  base := hbase

end Layer

variable [LinearOrder Score]

/-- Linking the new node on one layer returns and keeps the invariant. -/
theorem AddInv.linkLayer {lc level : Nat} {rest : List Nat} {st : HnswIndex × List (Cand Score) × Visited}
    (hnew : Unlinked h₀ id level) (hslots : h₀.nodes.length ≤ s.slotCount) (hlc : lc ≤ level)
    (hinv : AddInv params metric s q id h₀ (lc :: rest) st) :
    Yields (linkLayer metric s params q id st lc) (AddInv params metric s q id h₀ rest) := by
  obtain ⟨g, entries, vis⟩ := st
  have hlength : g.nodes.length = h₀.nodes.length := hinv.frame.length_eq
  have hclosed : g.Closed s := hinv.links.closed (hlength ▸ hslots)
  unfold HnswIndex.linkLayer
  refine (searchLayer_yields hclosed (fun e he => hinv.entry_lt he) hinv.entry_nodup hinv.measured hinv.wf
    (hlength ▸ hinv.stamps)).bind fun r hsearched => ?_
  obtain ⟨w, vis'⟩ := r
  have hfound := hinv.found hnew hsearched
  have hw_slots : ∀ c ∈ w, c.id < s.slotCount := fun c hc => by
    obtain ⟨-, lv, hlv, -⟩ := hfound c hc
    exact Nat.lt_of_lt_of_le (lt_of_level? hlv) hslots
  refine (selectNeighbors_yields params.M w hw_slots).bind fun neighbors hselect => ?_
  obtain ⟨hsub, hlen, hnonempty⟩ := hselect
  have hin : ∀ nb ∈ neighbors, nb ∈ w := fun nb hnb => hsub.subset hnb
  have hnodup : (neighbors.map Cand.id).Nodup := by
    obtain ⟨chosen, hperm, hchosen⟩ := hsub
    exact (hperm.map Cand.id).nodup_iff.mp (hsearched.nodup.sublist (hchosen.map Cand.id))
  have hfresh : id ∉ neighbors.map Cand.id := by
    intro hmem
    obtain ⟨nb, hnb, heq⟩ := List.mem_map.mp hmem
    exact (hfound nb (hin nb hnb)).1 heq
  have hnbs : ∀ b ∈ neighbors.map Cand.id, ∃ lv, g.level? b = some lv ∧ lc ≤ lv := by
    intro b hb
    obtain ⟨nb, hnb, rfl⟩ := List.mem_map.mp hb
    rw [hinv.frame.level?_eq]
    exact (hfound nb (hin nb hnb)).2
  have hself : g.links? id lc = some [] := (hinv.untouched lc List.mem_cons_self id).trans (hnew.empty lc hlc)
  refine (connectAll_yields hself neighbors hnodup hfresh fun nb hnb => ?_).bind fun g₁ hjoin => ?_
  · obtain ⟨lv, hlv, hle⟩ := hnbs nb.id (List.mem_map_of_mem hnb)
    exact hinv.links.links?_isSome hlv hle
  have hid : id < s.slotCount := Nat.lt_of_lt_of_le (lt_of_level? hnew.level_eq) hslots
  refine (hjoin.pruneAll hnodup hid (fun nb hnb => hw_slots nb (hin nb hnb))
    fun nb hnb ls hls x hx => ?_).bind fun g₂ hlinked => .pure ?_
  · exact Nat.lt_of_lt_of_le (hclosed.edge_lt lc nb.id x ⟨ls, hls, hx⟩) hclosed.nodes_le
  have hlv : g.level? id = some level := (hinv.frame.level?_eq id).trans hnew.level_eq
  have hlinks := hinv.links.linked hlinked (hinv.no_edge hnew) hnodup
    (by simpa using hlen) hfresh hlv hlc hnbs
  have hbase := hinv.base_next hsearched hlinked hfresh rfl hnonempty
  exact hinv.next hnew hsearched hlinked.frame hlinks
    (fun i l hl => hlinked.other i l fun hmem => hl hmem.1) hbase

/-! ### Zooming in -/

theorem mem_layersDown {hi lo lc : Nat} : lc ∈ layersDown hi lo ↔ lo ≤ lc ∧ lc < lo + (hi + 1 - lo) := by
  rw [layersDown, List.mem_reverse, List.mem_range'_1]

/-- Zooming in ends, at the entry point or at a node some link leads to, on every layer down to a given
one. -/
theorem descend_yields (hinv : LinksInv params h) (hslots : h.nodes.length ≤ s.slotCount)
    {ep lv m hi lo : Nat}
    (hep : h.level? ep = some lv) (hm : m ≤ lv) (hlo : m ≤ lo) :
    Yields (h.descend metric s q ep hi lo) fun best => Measured metric s q best ∧
      (∃ lv', h.level? best.id = some lv' ∧ m ≤ lv') ∧ (best.id = ep ∨ ∃ l i, h.Edge l i best.id) := by
  have hclosed := hinv.closed hslots
  rw [descend, distTo_ok (Nat.lt_of_lt_of_le (lt_of_level? hep) hslots)]
  refine .bind (.ok rfl) fun d hd => ?_
  subst hd
  let Inv : List Nat → Cand Score → Prop := fun rest best => (∀ lc ∈ rest, m ≤ lc) ∧
    Measured metric s q best ∧
    (∃ lv', h.level? best.id = some lv' ∧ m ≤ lv') ∧ (best.id = ep ∨ ∃ l i, h.Edge l i best.id)
  have hstep : ∀ lc rest best, Inv (lc :: rest) best →
      Yields (h.greedyUpper metric s q best lc) (Inv rest) := by
    intro lc rest best ⟨hlayers, hm, ⟨lv', hlv', hle⟩, hfrom⟩
    obtain ⟨hlc, hlayers⟩ := List.forall_mem_cons.mp hlayers
    refine (greedyUpper_yields hclosed (lt_of_level? hlv') hm lc).mono fun r hr => ?_
    refine ⟨hlayers, hr.measured, hinv.level_of_reaches hlv' hle hlc hr.reached, ?_⟩
    rcases ReflTransGen.cases_tail hr.reached with heq | ⟨i, -, hedge⟩
    · exact heq ▸ hfrom
    · exact .inr ⟨lc, i, hedge⟩
  have hstart : Inv (layersDown hi lo) ⟨metric.distance q (s.get ep), ep⟩ :=
    ⟨fun lc hlc => hlo.trans (mem_layersDown.mp hlc).1, rfl, ⟨lv, hep, hm⟩, .inl rfl⟩
  exact (Yields.foldlM hstep _ _ hstart).mono fun best hbest => hbest.2

/-! ### The new node -/

/-- The graph with a new last node, before it is linked. -/
def placed (h : HnswIndex) (params : HnswParams) : HnswIndex :=
  (h.reserve h.nodes.length).place params h.nodes.length

theorem nodes_placed (h : HnswIndex) (params : HnswParams) :
    (h.placed params).nodes = h.nodes ++
      [⟨params.levels h.drawn, List.replicate (params.levels h.drawn + 1) []⟩] := by
  simp [placed, place, reserve]

theorem built_placed (hbuilt : h.built = List.replicate h.nodes.length true) :
    (h.placed params).built = List.replicate (h.nodes.length + 1) true := by
  simp [placed, place, reserve, hbuilt, List.replicate_succ']

theorem level?_placed_of_lt {i : Nat} (hi : i < h.nodes.length) :
    (h.placed params).level? i = h.level? i := by
  rw [level?, level?, nodes_placed, List.getElem?_append_left hi]

theorem level?_placed_self : (h.placed params).level? h.nodes.length = some (params.levels h.drawn) := by
  rw [level?, nodes_placed, List.getElem?_concat_length]
  rfl

theorem links?_placed_of_lt {i : Nat} (hi : i < h.nodes.length) (l : Nat) :
    (h.placed params).links? i l = h.links? i l := by
  rw [links?, links?, nodes_placed, List.getElem?_append_left hi]

theorem links?_placed {i l : Nat} {ls : List Nat} (hls : (h.placed params).links? i l = some ls) :
    h.links? i l = some ls ∨ ls = [] := by
  rw [links?, nodes_placed] at hls
  rcases Nat.lt_trichotomy i h.nodes.length with hlt | rfl | hgt
  · rw [List.getElem?_append_left hlt] at hls
    exact .inl hls
  · rw [List.getElem?_concat_length] at hls
    exact .inr (List.eq_of_mem_replicate (List.mem_of_getElem? hls))
  · rw [List.getElem?_eq_none (by simp; omega)] at hls
    cases hls

theorem edge_placed {l i j : Nat} (hedge : (h.placed params).Edge l i j) : h.Edge l i j := by
  obtain ⟨ls, hls, hj⟩ := hedge
  rcases links?_placed hls with hls | rfl
  · exact ⟨ls, hls, hj⟩
  · exact absurd hj List.not_mem_nil

theorem LinksInv.placed (hinv : LinksInv params h) : LinksInv params (h.placed params) where
  links_length := by
    rw [nodes_placed, List.forall_mem_append, List.forall_mem_singleton]
    exact ⟨hinv.links_length, List.length_replicate⟩
  edge_ne l i j hedge := hinv.edge_ne l i j (edge_placed hedge)
  edge_level l i j hedge := by
    obtain ⟨lv, hlv, hle⟩ := hinv.edge_level l i j (edge_placed hedge)
    exact ⟨lv, (level?_placed_of_lt (lt_of_level? hlv)).trans hlv, hle⟩
  nodup i l ls hls := by
    rcases links?_placed hls with hls | rfl
    · exact hinv.nodup i l ls hls
    · exact List.nodup_nil
  length_le i l ls hls := by
    rcases links?_placed hls with hls | rfl
    · exact hinv.length_le i l ls hls
    · exact Nat.zero_le _

theorem LinksInv.unlinked (hinv : LinksInv params h) :
    Unlinked (h.placed params) h.nodes.length (params.levels h.drawn) where
  level_eq := level?_placed_self
  empty l hl := by
    have hlt : l < params.levels h.drawn + 1 := by omega
    rw [links?, nodes_placed, List.getElem?_concat_length]
    simp [hlt]
  no_edge l i hedge := by
    obtain ⟨lv, hlv, -⟩ := hinv.edge_level l i _ (edge_placed hedge)
    exact absurd (lt_of_level? hlv) (Nat.lt_irrefl _)

/-! ### The whole insertion -/

/-- What inserting a new node does. -/
structure Added (params : HnswParams) (s : VectorStore) (h h' : HnswIndex) : Prop where
  graph : GraphInv params h'
  length_eq : h'.nodes.length = h.nodes.length + 1
  base : h.nodes = [] ∨ ∃ entry nbs, entry < h.nodes.length ∧ h.nodes.length ∉ nbs ∧
    BaseLinked params s (h.placed params) h' h.nodes.length entry nbs

theorem GraphInv.add_built (hinv : GraphInv params h) (hid : id < h.nodes.length) :
    h.add metric s params id = .ok h := by
  have hbuilt : h.built[id]? = some true := by
    rw [hinv.built_eq, List.getElem?_replicate, if_pos hid]
  rw [add, if_neg (by omega)]
  simp only [hbuilt]
  rfl

theorem GraphInv.first (hinv : GraphInv params h) (hnil : h.nodes = []) :
    Added params s h
      { h.placed params with entryPoint := some h.nodes.length, maxLevel := params.levels h.drawn } where
  graph := by
    have hplaced := hinv.toLinksInv.placed
    refine ⟨⟨hplaced.links_length, hplaced.edge_ne, hplaced.edge_level, hplaced.nodup,
      hplaced.length_le⟩, ?_, ?_⟩
    · change (h.placed params).built = List.replicate (h.placed params).nodes.length true
      rw [built_placed hinv.built_eq, nodes_placed, List.length_append, List.length_singleton]
    · refine ⟨params.levels h.drawn, level?_placed_self, rfl, fun i lv hlv => ?_⟩
      have hi : i < (h.placed params).nodes.length := lt_of_level? hlv
      rw [nodes_placed, hnil, List.nil_append, List.length_singleton, Nat.lt_one_iff] at hi
      have hself : (h.placed params).level? i = some (params.levels h.drawn) := by
        have hzero : i = h.nodes.length := by rw [hi, hnil, List.length_nil]
        rw [hzero, level?_placed_self]
      exact (Option.some.inj (hlv.symm.trans hself)).le
  length_eq := by
    change (h.placed params).nodes.length = _
    rw [nodes_placed, List.length_append, List.length_singleton]
  base := .inl hnil

theorem pairwise_layersDown (hi lo : Nat) : (layersDown hi lo).Pairwise (· > ·) := by
  rw [layersDown, List.pairwise_reverse]
  exact List.pairwise_lt_range'

omit [LinearOrder Score] in
theorem addInv_start (hinv : GraphInv params h) {lv start : Nat} {best : Cand Score}
    (hmeasured : Measured metric s q best) (hlv : (h.placed params).level? best.id = some lv)
    (hle : start ≤ lv)
    (hne : best.id ≠ h.nodes.length) :
    AddInv params metric s q h.nodes.length (h.placed params) (layersDown start 0)
      (h.placed params, [best], Visited.ensure {} (h.placed params).nodes.length) where
  links := hinv.toLinksInv.placed
  frame := Frame.refl _
  descending := pairwise_layersDown start 0
  untouched _ _ _ := rfl
  measured e he := List.mem_singleton.mp he ▸ hmeasured
  entry_ne e he := List.mem_singleton.mp he ▸ hne
  entry_level e he := by
    rw [List.mem_singleton] at he
    subst he
    refine ⟨lv, hlv, fun lc hlc => ?_⟩
    have hlc := (mem_layersDown.mp hlc).2
    omega
  entry_nodup := List.nodup_singleton _
  entry_some := List.cons_ne_nil best []
  wf := Visited.wf_ensure _
  stamps := (Visited.length_ensure _).ge
  base := .inl (mem_layersDown.mpr (by omega))

omit [LinearOrder Score] in
/-- After the loop the entry point moves to the new node if that is higher than all others. -/
theorem AddInv.added {g : HnswIndex} {entries : List (Cand Score)} {vis : Visited} {ep lv : Nat}
    (hinv : GraphInv params h) (hep : h.entryPoint = some ep) (hlv : h.level? ep = some lv)
    (hmax : h.maxLevel = lv)
    (hhighest : ∀ i lv', h.level? i = some lv' → lv' ≤ lv)
    (hadd : AddInv params metric s q h.nodes.length (h.placed params) [] (g, entries, vis)) :
    Added params s h (if (params.levels h.drawn : Int) > g.maxLevel then
      { g with maxLevel := params.levels h.drawn, entryPoint := some h.nodes.length } else g) := by
  have hframe := hadd.frame
  have hlength : g.nodes.length = h.nodes.length + 1 := by
    rw [hframe.length_eq, nodes_placed, List.length_append, List.length_singleton]
  have hbuilt : g.built = List.replicate g.nodes.length true := by
    rw [hframe.built_eq, built_placed hinv.built_eq, hlength]
  have hlevels : ∀ i lv', g.level? i = some lv' → lv' ≤ lv ∨ lv' = params.levels h.drawn := by
    intro i lv' hlv'
    rw [hframe.level?_eq] at hlv'
    rcases Nat.lt_or_eq_of_le (Nat.le_of_lt_succ
      (hlength ▸ hframe.length_eq ▸ lt_of_level? hlv')) with hlt | rfl
    · rw [level?_placed_of_lt hlt] at hlv'
      exact .inl (hhighest i lv' hlv')
    · rw [level?_placed_self] at hlv'
      exact .inr (Option.some.inj hlv').symm
  have hbase : h.nodes = [] ∨ ∃ entry nbs, entry < h.nodes.length ∧ h.nodes.length ∉ nbs ∧
      BaseLinked params s (h.placed params) g h.nodes.length entry nbs := by
    obtain ⟨-, entry, nbs, hne, hlt, hfresh, hbase⟩ := hadd.base.resolve_left List.not_mem_nil
    rw [nodes_placed, List.length_append, List.length_singleton] at hlt
    exact .inr ⟨entry, nbs, by omega, hfresh, hbase⟩
  have hmax' : g.maxLevel = lv := hframe.maxLevel_eq.trans hmax
  by_cases hhigher : (params.levels h.drawn : Int) > g.maxLevel
  · rw [if_pos hhigher]
    have hlinks := hadd.links
    refine ⟨⟨⟨hlinks.links_length, hlinks.edge_ne, hlinks.edge_level, hlinks.nodup,
      hlinks.length_le⟩, hbuilt, ?_⟩,
      hlength, ?_⟩
    · refine ⟨params.levels h.drawn, (hframe.level?_eq _).trans level?_placed_self, rfl, fun i lv' hlv' => ?_⟩
      rcases hlevels i lv' hlv' with hle | heq
      · omega
      · exact heq.le
    · refine hbase.imp_right fun ⟨entry, nbs, hlt, hfresh, hbase⟩ => ⟨entry, nbs, hlt, hfresh, ?_⟩
      exact ⟨hbase.self, hbase.neighbor, hbase.other, hbase.nonempty⟩
  · rw [if_neg hhigher]
    refine ⟨⟨hadd.links, hbuilt, ?_⟩, hlength, hbase⟩
    have hep' : g.entryPoint = some ep := hframe.entryPoint_eq.trans hep
    have hlv' : g.level? ep = some lv := by
      rw [hframe.level?_eq, level?_placed_of_lt (lt_of_level? hlv), hlv]
    rw [EntryInv, hep']
    refine ⟨lv, hlv', hmax', fun i lv' hlv' => ?_⟩
    rcases hlevels i lv' hlv' with hle | heq
    · exact hle
    · omega

theorem GraphInv.add_new_yields (hinv : GraphInv params h) (hslots : h.nodes.length < s.slotCount) :
    Yields (h.add metric s params h.nodes.length) (Added params s h) := by
  have hnotbuilt : (h.reserve h.nodes.length).built[h.nodes.length]? = some false := by
    simp [reserve, hinv.built_eq]
  have hlength : (h.placed params).nodes.length = h.nodes.length + 1 := by
    rw [nodes_placed, List.length_append, List.length_singleton]
  have hslots' : (h.placed params).nodes.length ≤ s.slotCount := hlength ▸ hslots
  rw [add, if_pos (Nat.lt_succ_self _)]
  simp only [hnotbuilt, VectorStore.access_ok hslots]
  refine .bind (.ok rfl) fun q hq => ?_
  subst hq
  have hkeep : ((h.reserve h.nodes.length).place params h.nodes.length).entryPoint = h.entryPoint := rfl
  rw [hkeep]
  have hentry := hinv.entry
  unfold EntryInv at hentry
  cases hep : h.entryPoint with
  | none =>
      rw [hep] at hentry
      exact .pure (hinv.first hentry.1)
  | some ep =>
      rw [hep] at hentry
      obtain ⟨lv, hlv, hmax, hhighest⟩ := hentry
      have hlv' : (h.placed params).level? ep = some lv := (level?_placed_of_lt (lt_of_level? hlv)).trans hlv
      have hstart : (min (params.levels h.drawn : Int) h.maxLevel).toNat =
        min (params.levels h.drawn) lv := by omega
      refine (descend_yields hinv.toLinksInv.placed hslots' hlv' (Nat.min_le_right (params.levels h.drawn) lv)
        (Nat.min_le_left _ _ |>.trans (Nat.le_succ _))).bind fun best hbest => ?_
      obtain ⟨hmeasured, ⟨lvb, hlvb, hle⟩, hfrom⟩ := hbest
      have hunlinked := hinv.toLinksInv.unlinked
      have hne : best.id ≠ h.nodes.length := by
        rcases hfrom with heq | ⟨l, i, hedge⟩
        · rw [heq]
          exact (lt_of_level? hlv).ne
        · exact fun heq => hunlinked.no_edge l i (heq ▸ hedge)
      have hloop := addInv_start hinv hmeasured hlvb hle hne
      have hbelow : ∀ lc ∈ layersDown (min (params.levels h.drawn) lv) 0,
        lc ≤ params.levels h.drawn := fun lc hlc => by
        have hlc := (mem_layersDown.mp hlc).2
        omega
      rw [← hstart] at hloop hbelow
      let Inv : List Nat → HnswIndex × List (Cand Score) × Visited → Prop := fun rest st =>
        AddInv params metric s (s.get h.nodes.length) h.nodes.length (h.placed params) rest st ∧
          ∀ lc ∈ rest, lc ≤ params.levels h.drawn
      have hstep : ∀ lc rest st, Inv (lc :: rest) st →
          Yields (linkLayer metric s params (s.get h.nodes.length) h.nodes.length st lc) (Inv rest) := by
        intro lc rest st hst
        obtain ⟨hlc, hrest⟩ := List.forall_mem_cons.mp hst.2
        exact (hst.1.linkLayer hunlinked hslots' hlc).mono fun st' hst' => ⟨hst', hrest⟩
      refine (Yields.foldlM hstep _ _ ⟨hloop, hbelow⟩).bind fun st hst => ?_
      exact .pure (AddInv.added hinv hep hlv hmax hhighest hst.1)

end HnswIndex

end ToyVdb
