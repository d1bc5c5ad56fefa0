import ToyVdb.Hnsw.Greedy

/-!
# Linking a node into a layer

What selecting, connecting and pruning do to the link lists, and to nothing else. `Linked` is the effect of
linking a node into one layer: the node's list there is the selection, each selected node has the new one
appended and is cut down if that made it too long, and every other list is as it was.
-/

namespace ToyVdb

namespace HnswIndex

open Outcome

variable {h h' : HnswIndex}

/-! ### Updating one list -/

/-- The part of a node that linking never changes. -/
def shape (node : Node) : Nat × Nat := (node.level, node.links.length)

def level? (h : HnswIndex) (i : Nat) : Option Nat := (h.nodes[i]?).map Node.level

/-- Everything but the contents of the link lists is the same. -/
structure Frame (h h' : HnswIndex) : Prop where
  shape_eq : h'.nodes.map shape = h.nodes.map shape
  built_eq : h'.built = h.built
  entryPoint_eq : h'.entryPoint = h.entryPoint
  maxLevel_eq : h'.maxLevel = h.maxLevel
  drawn_eq : h'.drawn = h.drawn

theorem Frame.refl (h : HnswIndex) : Frame h h := ⟨rfl, rfl, rfl, rfl, rfl⟩

theorem Frame.trans {h'' : HnswIndex} (hf : Frame h h') (hf' : Frame h' h'') : Frame h h'' where
  shape_eq := hf'.shape_eq.trans hf.shape_eq
  built_eq := hf'.built_eq.trans hf.built_eq
  entryPoint_eq := hf'.entryPoint_eq.trans hf.entryPoint_eq
  maxLevel_eq := hf'.maxLevel_eq.trans hf.maxLevel_eq
  drawn_eq := hf'.drawn_eq.trans hf.drawn_eq

theorem Frame.length_eq (hf : Frame h h') : h'.nodes.length = h.nodes.length := by
  simpa using congrArg List.length hf.shape_eq

theorem level?_eq_shape (h : HnswIndex) (i : Nat) : h.level? i = ((h.nodes.map shape)[i]?).map Prod.fst := by
  rw [level?, List.getElem?_map, Option.map_map]
  rfl

theorem Frame.level?_eq (hf : Frame h h') (i : Nat) : h'.level? i = h.level? i := by
  rw [level?_eq_shape, level?_eq_shape, hf.shape_eq]

theorem nodes_setLinks_self (h : HnswIndex) (i l : Nat) (ls : List Nat) :
    (h.setLinks i l ls).nodes[i]? = (h.nodes[i]?).map
      fun node => { node with links := node.links.set l ls } :=
  List.getElem?_modify_eq ..

theorem nodes_setLinks_of_ne (h : HnswIndex) {i j : Nat} (hne : j ≠ i) (l : Nat) (ls : List Nat) :
    (h.setLinks i l ls).nodes[j]? = h.nodes[j]? :=
  List.getElem?_modify_ne _ _ hne.symm

theorem frame_setLinks (h : HnswIndex) (i l : Nat) (ls : List Nat) : Frame h (h.setLinks i l ls) where
  shape_eq := by
    apply List.ext_getElem?
    intro j
    rw [List.getElem?_map, List.getElem?_map]
    by_cases hj : j = i
    · subst hj
      rw [nodes_setLinks_self, Option.map_map]
      congr 1
      funext node
      simp [shape]
    · rw [nodes_setLinks_of_ne h hj]
  built_eq := rfl
  entryPoint_eq := rfl
  maxLevel_eq := rfl
  drawn_eq := rfl

/-- One list is replaced. -/
structure Relinked (h h' : HnswIndex) (i l : Nat) (ls : List Nat) : Prop where
  frame : Frame h h'
  self : h'.links? i l = some ls
  other : ∀ j m, ¬ (j = i ∧ m = l) → h'.links? j m = h.links? j m

theorem relinked_setLinks {i l : Nat} {old : List Nat} (hold : h.links? i l = some old) (ls : List Nat) :
    Relinked h (h.setLinks i l ls) i l ls where
  frame := frame_setLinks h i l ls
  self := by
    obtain ⟨node, hnode, hlinks⟩ := Option.bind_eq_some_iff.mp hold
    obtain ⟨hl, -⟩ := List.getElem?_eq_some_iff.mp hlinks
    rw [links?, nodes_setLinks_self, hnode]
    exact List.getElem?_set_self hl
  other j m hne := by
    by_cases hj : j = i
    · subst hj
      have hm : m ≠ l := fun heq => hne ⟨rfl, heq⟩
      rw [links?, links?, nodes_setLinks_self]
      cases h.nodes[j]? with
      | none => rfl
      | some node => exact List.getElem?_set_ne hm.symm
    · rw [links?, links?, nodes_setLinks_of_ne h hj]

theorem relinked_refl {i l : Nat} {ls : List Nat} (hls : h.links? i l = some ls) : Relinked h h i l ls :=
  ⟨Frame.refl h, hls, fun _ _ _ => rfl⟩

theorem getLinks_ok {i l : Nat} {ls : List Nat} (hls : h.links? i l = some ls) : h.getLinks i l = .ok ls := by
  obtain ⟨node, hnode, hlinks⟩ := Option.bind_eq_some_iff.mp hls
  have hok : h.node i = .ok node := by rw [HnswIndex.node, hnode]
  rw [getLinks, hok]
  dsimp only [bind, Except.bind]
  rw [hlinks]

/-! ### Selecting -/

section Select

variable {Score : Type} [LinearOrder Score] {metric : Metric Score} {s : VectorStore}

theorem access_yields {id : Nat} (hid : id < s.slotCount) : Yields (s.access id) fun v => v = s.get id :=
  ⟨_, VectorStore.access_ok hid, rfl⟩

theorem crowded_yields (cv : Vec) (dist : Score) (result : List (Cand Score))
    (hresult : ∀ c ∈ result, c.id < s.slotCount) :
    Yields (crowded metric s cv dist result) fun b => result = [] → b = false := by
  induction result with
  | nil => exact .pure fun _ => rfl
  | cons r result ih =>
      obtain ⟨hr, hresult⟩ := List.forall_mem_cons.mp hresult
      rw [crowded]
      refine (access_yields hr).bind fun v _ => ?_
      by_cases hclose : metric.distance cv v < dist
      · rw [if_pos hclose]
        exact .pure fun hnil => absurd hnil (List.cons_ne_nil r result)
      · rw [if_neg hclose]
        exact (ih hresult).mono fun _ _ hnil => absurd hnil (List.cons_ne_nil r result)

/-- A selection extends what is selected already by some of the candidates in order, up to the limit, and
takes the first candidate if nothing was selected before. -/
theorem selectLoop_yields (m : Nat) (cands : List (Cand Score)) (hcands : ∀ c ∈ cands, c.id < s.slotCount)
    (result : List (Cand Score)) (hresult : ∀ c ∈ result, c.id < s.slotCount) (hlen : result.length ≤ m) :
    Yields (selectLoop metric s m result cands) fun out =>
      (∃ more, out = result ++ more ∧ more.Sublist cands) ∧ out.length ≤ m ∧
        (0 < m → result ++ cands ≠ [] → out ≠ []) := by
  induction cands generalizing result with
  | nil =>
      rw [selectLoop, List.append_nil]
      exact .pure ⟨⟨[], (List.append_nil result).symm, List.Sublist.refl _⟩, hlen, fun _ hne => hne⟩
  | cons cand cands ih =>
      obtain ⟨hcand, hcands⟩ := List.forall_mem_cons.mp hcands
      rw [selectLoop]
      by_cases hfull : result.length ≥ m
      · rw [if_pos hfull]
        refine .pure ⟨⟨[], (List.append_nil result).symm, List.nil_sublist _⟩, hlen, fun hm _ hnil => ?_⟩
        rw [hnil, List.length_nil] at hfull
        omega
      · rw [if_neg hfull]
        refine (access_yields hcand).bind fun cv _ => ?_
        refine (crowded_yields cv cand.dist result hresult).bind fun b hb => ?_
        cases b with
        | true =>
            refine (ih hcands result hresult hlen).mono fun out hout => ?_
            obtain ⟨⟨more, rfl, hsub⟩, hlen', hne⟩ := hout
            have hresult : result ≠ [] := fun hnil => absurd (hb hnil) (by decide)
            exact ⟨⟨more, rfl, hsub.cons cand⟩, hlen', fun _ _ => by simp [hresult]⟩
        | false =>
            have hresult' : ∀ c ∈ result ++ [cand], c.id < s.slotCount := by
              rw [List.forall_mem_append, List.forall_mem_singleton]
              exact ⟨hresult, hcand⟩
            have hlen' : (result ++ [cand]).length ≤ m := by
              rw [List.length_append, List.length_singleton]
              omega
            refine (ih hcands _ hresult' hlen').mono fun out hout => ?_
            obtain ⟨⟨more, rfl, hsub⟩, hlen', -⟩ := hout
            exact ⟨⟨cand :: more, by simp, hsub.cons_cons cand⟩, hlen', fun _ _ => by simp⟩

theorem selectNeighbors_yields (m : Nat) (cands : List (Cand Score))
    (hcands : ∀ c ∈ cands, c.id < s.slotCount) :
    Yields (selectNeighbors metric s cands m) fun out =>
      out.Subperm cands ∧ out.length ≤ m ∧ (0 < m → cands ≠ [] → out ≠ []) := by
  have hsort : (sortByDist cands).Perm cands := List.perm_insertionSort _ cands
  refine (selectLoop_yields m (sortByDist cands) (fun c hc => hcands c (hsort.subset hc)) [] (by simp)
    (Nat.zero_le m)).mono fun out hout => ?_
  obtain ⟨⟨more, rfl, hsub⟩, hlen, hne⟩ := hout
  refine ⟨hsub.subperm.trans hsort.subperm, hlen, fun hm hcands => hne hm fun hnil => hcands ?_⟩
  rw [List.nil_append] at hnil
  exact List.Perm.nil_eq (hnil ▸ hsort) |>.symm

end Select

/-! ### Connecting -/

/-- A node whose list at the layer is empty has been linked, both ways, to the listed nodes. -/
structure Joined (h h' : HnswIndex) (id lc : Nat) (nbs : List Nat) : Prop where
  frame : Frame h h'
  fresh : id ∉ nbs
  self : h'.links? id lc = some nbs
  neighbor : ∀ b ∈ nbs, ∃ ls, h.links? b lc = some ls ∧ h'.links? b lc = some (ls ++ [id])
  other : ∀ i l, ¬ (l = lc ∧ (i = id ∨ i ∈ nbs)) → h'.links? i l = h.links? i l

theorem pushLink_yields {a l : Nat} {ls : List Nat} (hls : h.links? a l = some ls) (b : Nat) :
    Yields (h.pushLink a b l) fun h' => Relinked h h' a l (ls ++ [b]) := by
  rw [pushLink, getLinks_ok hls]
  exact .pure (relinked_setLinks hls _)

theorem Joined.connect {h₁ : HnswIndex} {id lc b : Nat} {nbs : List Nat} (hjoin : Joined h h₁ id lc nbs)
    (hne : b ≠ id) (hnew : b ∉ nbs) (hb : (h.links? b lc).isSome) :
    Yields (h₁.connect id b lc) fun h' => Joined h h' id lc (nbs ++ [b]) := by
  obtain ⟨ls, hls⟩ := Option.isSome_iff_exists.mp hb
  refine (pushLink_yields hjoin.self b).bind fun h₂ hself => ?_
  have hls' : h₂.links? b lc = some ls := by
    rw [hself.other b lc fun heq => hne heq.1, hjoin.other b lc fun hmem => hmem.2.elim hne hnew, hls]
  refine (pushLink_yields hls' id).mono fun h₃ hback => ?_
  -- a list that is neither the node's nor the new neighbour's is as it was before this round
  have hother : ∀ i l, ¬ (i = id ∧ l = lc) → ¬ (i = b ∧ l = lc) → h₃.links? i l = h₁.links? i l :=
    fun i l hi hi' => (hback.other i l hi').trans (hself.other i l hi)
  refine ⟨hjoin.frame.trans (hself.frame.trans hback.frame), ?_, ?_, fun c hc => ?_, fun i l hi => ?_⟩
  · simp [hjoin.fresh, hne.symm]
  · rw [hback.other id lc fun heq => hne heq.1.symm, hself.self]
  · rcases List.mem_append.mp hc with hc | hc
    · obtain ⟨old, hold, hnow⟩ := hjoin.neighbor c hc
      exact ⟨old, hold, (hother c lc (fun heq => hjoin.fresh (heq.1 ▸ hc)) fun heq => hnew
        (heq.1 ▸ hc)).trans hnow⟩
    · rw [List.mem_singleton] at hc
      subst hc
      exact ⟨ls, hls, hback.self⟩
  · have hi' : ¬ (l = lc ∧ (i = id ∨ i ∈ nbs)) :=
      fun hmem => hi ⟨hmem.1, hmem.2.imp_right (List.mem_append_left _)⟩
    rw [hother i l (fun heq => hi ⟨heq.2, .inl heq.1⟩) (fun heq => hi ⟨heq.2, .inr (by simp [heq.1])⟩),
      hjoin.other i l hi']

theorem connectAll_yields {Score : Type} {id lc : Nat} (hid : h.links? id lc = some [])
    (neighbors : List (Cand Score)) (hnodup : (neighbors.map Cand.id).Nodup)
    (hfresh : id ∉ neighbors.map Cand.id)
    (hlinks : ∀ nb ∈ neighbors, (h.links? nb.id lc).isSome) :
    Yields (neighbors.foldlM (fun h nb => h.connect id nb.id lc) h) fun h' =>
      Joined h h' id lc (neighbors.map Cand.id) := by
  have hstart : Joined h h id lc [] :=
    ⟨Frame.refl h, List.not_mem_nil, hid, fun b hb => absurd hb List.not_mem_nil, fun _ _ _ => rfl⟩
  let Inv : List (Cand Score) → HnswIndex → Prop := fun rest h' =>
    ∃ done, neighbors = done ++ rest ∧ Joined h h' id lc (done.map Cand.id)
  have hstep : ∀ nb rest h', Inv (nb :: rest) h' → Yields (h'.connect id nb.id lc) (Inv rest) := by
    intro nb rest h' ⟨done, hsplit, hjoin⟩
    subst hsplit
    rw [List.map_append, List.map_cons] at hnodup hfresh
    have hne : nb.id ≠ id := fun heq => hfresh (by simp [heq])
    have hnew : nb.id ∉ done.map Cand.id := fun hmem =>
      (List.nodup_append.mp hnodup).2.2 _ hmem _ List.mem_cons_self rfl
    refine (hjoin.connect hne hnew (hlinks nb (by simp))).mono fun h'' hjoin' => ⟨done ++ [nb], by simp, ?_⟩
    rwa [List.map_append]
  refine (Yields.foldlM hstep neighbors h ⟨[], rfl, hstart⟩).mono fun h' ⟨done, hsplit, hjoin⟩ => ?_
  rw [List.append_nil] at hsplit
  exact hsplit ▸ hjoin

/-! ### Pruning -/

/-- A list cut down to a cap; a list within the cap is left alone. -/
structure Pruned (cap : Nat) (old new : List Nat) : Prop where
  sub : new.Subperm old
  length_le : new.length ≤ cap
  eq_of_le : old.length ≤ cap → new = old

theorem Pruned.nodup {cap : Nat} {old new : List Nat} (hp : Pruned cap old new) (hold : old.Nodup) :
    new.Nodup := by
  obtain ⟨kept, hperm, hsub⟩ := hp.sub
  exact hperm.nodup_iff.mp (hold.sublist hsub)

section Prune

variable {Score : Type} {metric : Metric Score} {s : VectorStore}

theorem mapM_measure_yields (v : Vec) (lst : List Nat) (hlst : ∀ x ∈ lst, x < s.slotCount) :
    Yields (lst.mapM fun x => do
      let w ← s.access x
      pure (Cand.mk (metric.distance v w) x)) fun cc => cc.map Cand.id = lst := by
  induction lst with
  | nil => exact .pure rfl
  | cons x lst ih =>
      obtain ⟨hx, hlst⟩ := List.forall_mem_cons.mp hlst
      rw [List.mapM_cons]
      refine .bind (.bind (access_yields hx) fun w _ => .pure
        (P := fun c : Cand Score => c.id = x) rfl) fun c hc => ?_
      refine (ih hlst).bind fun cc hcc => .pure ?_
      rw [List.map_cons, hc, hcc]

variable [LinearOrder Score]

theorem prune_yields {b lc cap : Nat} {ls : List Nat} (hls : h.links? b lc = some ls) (hb : b < s.slotCount)
    (hslots : ∀ x ∈ ls, x < s.slotCount) :
    Yields (h.prune metric s b lc cap) fun h' => ∃ ls', Relinked h h' b lc ls' ∧ Pruned cap ls ls' := by
  rw [prune, getLinks_ok hls]
  refine .bind (.ok rfl) fun lst hlst => ?_
  subst hlst
  by_cases hfits : ls.length ≤ cap
  · rw [if_pos hfits]
    exact .pure ⟨ls, relinked_refl hls, List.Subperm.refl ls, hfits, fun _ => rfl⟩
  · rw [if_neg hfits]
    refine (access_yields hb).bind fun v _ => ?_
    refine (mapM_measure_yields v ls hslots).bind fun cc hcc => ?_
    have hcands : ∀ c ∈ cc, c.id < s.slotCount := fun c hc => hslots _ (hcc ▸ List.mem_map_of_mem hc)
    refine (selectNeighbors_yields cap cc hcands).bind fun kept hkept => ?_
    refine .pure ⟨_, relinked_setLinks hls _, ?_, ?_, fun hle => absurd hle hfits⟩
    · obtain ⟨chosen, hperm, hsub⟩ := hkept.1
      exact hcc ▸ ⟨chosen.map Cand.id, hperm.map Cand.id, hsub.map Cand.id⟩
    · rw [List.length_map]
      exact hkept.2.1

/-- A node has been linked into a layer. -/
structure Linked (h h' : HnswIndex) (id lc : Nat) (nbs : List Nat) (cap : Nat) : Prop where
  frame : Frame h h'
  self : h'.links? id lc = some nbs
  neighbor : ∀ b ∈ nbs, ∃ ls ls', h.links? b lc = some ls ∧ h'.links? b lc = some ls' ∧
    Pruned cap (ls ++ [id]) ls'
  other : ∀ i l, ¬ (l = lc ∧ (i = id ∨ i ∈ nbs)) → h'.links? i l = h.links? i l

theorem Joined.pruneAll {h₁ : HnswIndex} {id lc cap : Nat} {neighbors : List (Cand Score)}
    (hjoin : Joined h h₁ id lc (neighbors.map Cand.id)) (hnodup : (neighbors.map Cand.id).Nodup)
    (hid : id < s.slotCount) (hslots : ∀ nb ∈ neighbors, nb.id < s.slotCount)
    (hlinks : ∀ nb ∈ neighbors, ∀ ls, h.links? nb.id lc = some ls → ∀ x ∈ ls, x < s.slotCount) :
    Yields (neighbors.foldlM (fun h nb => h.prune metric s nb.id lc cap) h₁) fun h' =>
      Linked h h' id lc (neighbors.map Cand.id) cap := by
  -- the neighbours still to be pruned have the list that connecting left them
  let Inv : List (Cand Score) → HnswIndex → Prop := fun rest h' =>
    ∃ done, neighbors = done ++ rest ∧ Frame h₁ h' ∧
      (∀ i l, ¬ (l = lc ∧ i ∈ done.map Cand.id) → h'.links? i l = h₁.links? i l) ∧
      ∀ b ∈ done.map Cand.id, ∃ ls ls', h.links? b lc = some ls ∧ h'.links? b lc = some ls' ∧
        Pruned cap (ls ++ [id]) ls'
  have hstep : ∀ nb rest h', Inv (nb :: rest) h' → Yields (h'.prune metric s nb.id lc cap) (Inv rest) := by
    intro nb rest h' ⟨done, hsplit, hframe, hother, hdone⟩
    have hmem : nb ∈ neighbors := hsplit ▸ List.mem_append_right _ List.mem_cons_self
    have hnew : nb.id ∉ done.map Cand.id := by
      rw [hsplit, List.map_append, List.map_cons] at hnodup
      exact fun hin => (List.nodup_append.mp hnodup).2.2 _ hin _ List.mem_cons_self rfl
    obtain ⟨ls, hls, hnow⟩ := hjoin.neighbor nb.id (List.mem_map_of_mem hmem)
    have hcur : h'.links? nb.id lc = some (ls ++ [id]) := (hother nb.id lc fun hin => hnew hin.2).trans hnow
    have hin : ∀ x ∈ ls ++ [id], x < s.slotCount := by
      rw [List.forall_mem_append, List.forall_mem_singleton]
      exact ⟨hlinks nb hmem ls hls, hid⟩
    refine (prune_yields hcur (hslots nb hmem) hin).mono fun h'' hprune => ?_
    obtain ⟨ls', hre, hpruned⟩ := hprune
    refine ⟨done ++ [nb], by simp [hsplit], hframe.trans hre.frame, fun i l hi => ?_, fun b hb => ?_⟩
    · rw [List.map_append, List.mem_append] at hi
      rw [hre.other i l fun heq => hi ⟨heq.2, .inr (by simp [heq.1])⟩,
        hother i l fun hin => hi ⟨hin.1, .inl hin.2⟩]
    · rw [List.map_append, List.mem_append] at hb
      rcases hb with hb | hb
      · obtain ⟨old, new, hold, hnew', hpruned'⟩ := hdone b hb
        exact ⟨old, new, hold, (hre.other b lc fun heq => hnew (heq.1 ▸ hb)).trans hnew', hpruned'⟩
      · rw [List.map_singleton, List.mem_singleton] at hb
        subst hb
        exact ⟨ls, ls', hls, hre.self, hpruned⟩
  have hstart : Inv neighbors h₁ :=
    ⟨[], rfl, Frame.refl h₁, fun _ _ _ => rfl, fun b hb => absurd hb List.not_mem_nil⟩
  refine (Yields.foldlM hstep neighbors h₁ hstart).mono fun h' hinv => ?_
  obtain ⟨done, hsplit, hframe, hother, hdone⟩ := hinv
  rw [List.append_nil] at hsplit
  subst hsplit
  refine ⟨hjoin.frame.trans hframe, ?_, hdone, fun i l hi => ?_⟩
  · rw [hother id lc fun hin => hjoin.fresh hin.2, hjoin.self]
  · rw [hother i l fun hin => hi ⟨hin.1, .inr hin.2⟩, hjoin.other i l hi]

end Prune

end HnswIndex

end ToyVdb
