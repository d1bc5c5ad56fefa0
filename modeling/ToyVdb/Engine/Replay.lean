import ToyVdb.Engine.Invariant
import ToyVdb.Store.Refinement
import Mathlib.Data.List.Range

/-!
# Replaying ops

Recovery and compaction both build an engine by applying ops to a fresh one. This module says what that
yields: an engine whose content is the replay of the ops on the map, and for the ops of a snapshot the
content the snapshot was taken of.

Scores are linearly ordered, as the index that is built compares them: no distance is undefined.
-/

namespace ToyVdb

namespace Engine

open Outcome

/-! ### The live entries of a store -/

section Live

variable {s s' : VectorStore} (h : s.Ids)

include h

theorem mem_liveSlots {id : Nat} : id ∈ liveSlots s ↔ s.isLive id = true := by
  rw [liveSlots, List.mem_filter, List.mem_range]
  exact ⟨fun hid => hid.2, fun hid => ⟨h.lt_of_isLive hid, hid⟩⟩

omit h in
theorem externalId_eq {id : Nat} (hid : id < s.slotCount) : s.extIds[id]? = some (s.externalId id) := by
  have hlt : id < s.extIds.length := hid
  simp [VectorStore.externalId, hlt]

theorem lookup_externalId {id : Nat} (hid : id < s.slotCount) :
    s.extToInt.lookup (s.externalId id) = some id :=
  (h.lookup_iff _ _).mpr (externalId_eq hid)

theorem resolve_externalId {id : Nat} (hlive : s.isLive id = true) : s.resolve (s.externalId id) = some id :=
  VectorStore.resolve_eq_some_iff.mpr ⟨lookup_externalId h (h.lt_of_isLive hlive), hlive⟩

theorem externalId_of_resolve {x : Bytes} {id : Nat} (hid : s.resolve x = some id) : s.externalId id = x := by
  obtain ⟨hlookup, -⟩ := VectorStore.resolve_eq_some_iff.mp hid
  exact h.lookup_injective (lookup_externalId h (h.lt_of_lookup hlookup)) hlookup

theorem nodup_liveIds : ((liveSlots s).map s.externalId).Nodup := by
  rw [List.nodup_map_iff_inj_on (show (liveSlots s).Nodup from List.nodup_range.filter _)]
  intro i hi j hj heq
  have hi' := resolve_externalId h ((mem_liveSlots h).mp hi)
  rw [heq, resolve_externalId h ((mem_liveSlots h).mp hj)] at hi'
  exact (Option.some.inj hi').symm

theorem length_get {id : Nat} (hid : id < s.slotCount) : (s.get id).length = s.dim.toNat :=
  Arena.length_row ((Nat.mul_le_mul_right _ hid).trans h.arena_le)

theorem metadata_eq {id : Nat} (hid : id < s.slotCount) : s.metadata id = some ((s.metadata id).getD ∅) := by
  have hlt : id < s.metas.length := h.metas_length ▸ hid
  simp [VectorStore.metadata, hlt]

theorem mem_liveIds_iff {x : Bytes} : x ∈ (liveSlots s).map s.externalId ↔ (s.content x).isSome := by
  rw [VectorStore.content, Option.isSome_map, Option.isSome_iff_exists, List.mem_map]
  constructor
  · rintro ⟨id, hid, rfl⟩
    exact ⟨id, resolve_externalId h ((mem_liveSlots h).mp hid)⟩
  · rintro ⟨id, hid⟩
    exact ⟨id, (mem_liveSlots h).mpr (VectorStore.resolve_eq_some_iff.mp hid).2, externalId_of_resolve h hid⟩

theorem size_eq : s.size = (liveSlots s).length := by
  have hlive : s.live = (List.range s.slotCount).map s.isLive := by
    apply List.ext_getElem
    · rw [h.live_length, List.length_map, List.length_range]
    · intro i hi _
      have hget := h.isLive_eq_getElem (h.live_length ▸ hi)
      rw [List.getElem?_eq_getElem hi] at hget
      simpa using Option.some.inj hget
  rw [VectorStore.size, h.count, hlive, List.count, List.countP_map, List.countP_eq_length_filter]
  congr 1
  apply List.filter_congr
  intro id _
  simp

theorem size_congr (h' : s'.Ids) (hcontent : s'.content = s.content) : s'.size = s.size := by
  have hperm : ((liveSlots s').map s'.externalId).Perm ((liveSlots s).map s.externalId) := by
    rw [List.perm_ext_iff_of_nodup (nodup_liveIds h') (nodup_liveIds h)]
    intro x
    rw [mem_liveIds_iff h', mem_liveIds_iff h, hcontent]
  have hlen := hperm.length_eq
  rw [List.length_map, List.length_map] at hlen
  rw [size_eq h, size_eq h', hlen]

/-- The snapshot of a store describes its content. -/
theorem replay_snapshotOps :
    KeyedLog.replay ((liveSlots s).map fun id => (snapshotOp s id).write s.dim) (fun _ => none) =
      s.content := by
  have hkeys : ((liveSlots s).map fun id => (snapshotOp s id).write s.dim).map KeyedLog.Write.key =
      (liveSlots s).map s.externalId := by
    rw [List.map_map]
    rfl
  funext x
  cases hx : s.resolve x with
  | none =>
      rw [VectorStore.content_eq_none_iff.mpr hx, KeyedLog.replay_of_notMem]
      rw [hkeys, mem_liveIds_iff h, VectorStore.content_eq_none_iff.mpr hx]
      decide
  | some id =>
      have hlive := (VectorStore.resolve_eq_some_iff.mp hx).2
      have hmem : (snapshotOp s id).write s.dim ∈ (liveSlots s).map fun id => (snapshotOp s id).write s.dim :=
        List.mem_map_of_mem ((mem_liveSlots h).mpr hlive)
      have hfits : (snapshotOp s id).Fits s.dim := length_get h (h.lt_of_isLive hlive)
      have hreplay := KeyedLog.replay_of_mem (hkeys ▸ nodup_liveIds h) hmem fun _ => none
      rw [VectorStore.content_of_resolve hx]
      change KeyedLog.replay _ _ (s.externalId id) = (snapshotOp s id).effect s.dim none at hreplay
      rw [externalId_of_resolve h hx, Op.effect_insert rfl hfits] at hreplay
      exact hreplay

end Live

/-! ### Replaying -/

variable {Score : Type} {cfg : EngineConfig Score} {e e' : Engine} {op : Op} {ops : List Op}

/-- An op that an engine of the dimension accepts. -/
structure Acceptable (dim : UInt32) (op : Op) : Prop where
  delete : op.type = .delete → op.vec = []
  fits : op.type ≠ .delete → op.Fits dim

theorem Acceptable.length_lt {dim : UInt32} (hop : Acceptable dim op) : op.vec.length < 2 ^ 32 := by
  by_cases hdelete : op.type = .delete
  · rw [hop.delete hdelete]
    decide
  · rw [show op.vec.length = dim.toNat from hop.fits hdelete]
    exact dim.toNat_lt

theorem Acceptable.not_rejected {s s' : VectorStore} {err : Error} (hop : Acceptable s.dim op) :
    ¬ s.Applied op (.error err) s' := by
  intro happlied
  obtain ⟨hdelete, hdim⟩ := happlied.of_error
  exact hdim ((VectorStore.ofNat_length_eq_iff hop.length_lt).mpr (hop.fits hdelete))

variable [LinearOrder Score]

theorem mutate_store (e : Engine) (op : Op) : (e.mutate cfg op).2.store = (e.store.apply op).2 := by
  unfold mutate
  cases op.type with
  | insert =>
      rcases e.store.apply op with ⟨_ | _ | id, s⟩
      · rfl
      · rfl
      · dsimp only
        split_ifs
        · cases e.index.add cfg s id <;> rfl
        · rfl
  | update => rcases e.store.apply op with ⟨_ | _, s⟩ <;> rfl
  | delete => rcases e.store.apply op with ⟨_ | _ | _, s⟩ <;> rfl

theorem replayOp_eq (e : Engine) (op : Op) :
    e.replayOp cfg op = match e.mutate cfg op with
      | (.ok _, e) => .ok e
      | (.error err, _) => .error err := rfl

theorem mutate_of_replayOp (hreplay : e.replayOp cfg op = .ok e') : ∃ n, e.mutate cfg op = (.ok n, e') := by
  rw [replayOp_eq] at hreplay
  cases hcall : e.mutate cfg op with
  | mk r e₁ =>
  rw [hcall] at hreplay
  cases r with
  | error err => cases hreplay
  | ok n =>
      cases hreplay
      exact ⟨n, rfl⟩

theorem Wf.replayOp_yields (hwf : e.Wf cfg) (hop : Acceptable cfg.dim op) :
    Yields (e.replayOp cfg op) fun e' => ∃ n, Mutated cfg e op (.ok n) e' := by
  have hmut := hwf.mutate op
  rw [replayOp_eq]
  cases hm : e.mutate cfg op with
  | mk r e' =>
  rw [hm] at hmut
  cases r with
  | ok n => exact .ok ⟨n, hmut⟩
  | error err =>
      dsimp only at hmut
      cases hmut with
      | rejected happlied => exact absurd happlied (Acceptable.not_rejected (hwf.dim_eq.symm ▸ hop))

/-- What replaying a list of ops yields. -/
structure Replayed (cfg : EngineConfig Score) (e : Engine) (ops : List Op) (e' : Engine) : Prop where
  wf : e'.Wf cfg
  store : e'.store.Wf
  disk_eq : e'.disk = e.disk
  content_eq : e'.store.content = KeyedLog.replay (ops.map (Op.write cfg.dim)) e.store.content

omit [LinearOrder Score] in
theorem Replayed.refl (hwf : e.Wf cfg) (hstore : e.store.Wf) : Replayed cfg e [] e := ⟨hwf, hstore, rfl, rfl⟩

omit [LinearOrder Score] in
theorem Replayed.concat (h : Replayed cfg e ops e') {e'' : Engine} {r : Except Error Nat}
    (hlen : op.vec.length < 2 ^ 32) (hmut : Mutated cfg e' op r e'') : Replayed cfg e (ops ++ [op]) e'' := by
  obtain ⟨⟨r₀, happlied⟩, hdisk⟩ := hmut.applied
  refine ⟨hmut.wf h.wf, h.store.applied hlen happlied, hdisk.trans h.disk_eq, ?_⟩
  rw [happlied.content_eq h.store hlen, h.content_eq, h.wf.dim_eq, List.map_append, List.map_singleton,
    KeyedLog.replay_concat]

theorem replayOps_yields (hwf : e.Wf cfg) (hstore : e.store.Wf) (ops : List Op)
    (hops : ∀ op ∈ ops, Acceptable cfg.dim op) :
    Yields (ops.foldlM (replayOp cfg) e) (Replayed cfg e ops) := by
  let Inv : List Op → Engine → Prop := fun rest e' => ∃ done, ops = done ++ rest ∧ Replayed cfg e done e'
  have hstep : ∀ op rest e', Inv (op :: rest) e' → Yields (e'.replayOp cfg op) (Inv rest) := by
    intro op rest e' hinv
    obtain ⟨done, hsplit, hreplayed⟩ := hinv
    have hop := hops op (hsplit ▸ List.mem_append_right _ List.mem_cons_self)
    refine (hreplayed.wf.replayOp_yields hop).mono fun e'' hmut => ?_
    obtain ⟨n, hmut⟩ := hmut
    exact ⟨done ++ [op], by simp [hsplit], hreplayed.concat hop.length_lt hmut⟩
  refine (Yields.foldlM hstep ops e ⟨[], rfl, Replayed.refl hwf hstore⟩).mono fun e' hinv => ?_
  obtain ⟨done, hsplit, hreplayed⟩ := hinv
  rw [List.append_nil] at hsplit
  exact hsplit ▸ hreplayed

/-! ### Compaction -/

section Compaction

/-- A live entry as the op that inserts it. -/
def LiveEntry.insertOp (entry : LiveEntry) : Op := ⟨.insert, entry.extId, entry.vec, some entry.metadata⟩

omit [LinearOrder Score] in
theorem liveEntries_map_insertOp {s : VectorStore} (h : s.Ids) :
    (liveEntries s).map LiveEntry.insertOp = (liveSlots s).map (snapshotOp s) := by
  rw [liveEntries, List.map_map]
  apply List.map_congr_left
  intro id hid
  have hlt := h.lt_of_isLive ((mem_liveSlots h).mp hid)
  rw [snapshotOp, metadata_eq h hlt]
  rfl

omit [LinearOrder Score] in
theorem apply_new {s : VectorStore} {x : Bytes} {vec : Vec} (hnew : s.extToInt.lookup x = none)
    (hdim : UInt32.ofNat vec.length = s.dim) (m : Metadata) :
    s.apply ⟨.insert, x, vec, some m⟩ = (.ok (some s.slotCount), s.appendSlot x vec m) := by
  simp only [VectorStore.apply, VectorStore.doInsert, VectorStore.validateDim_ok hdim, hnew, Option.getD_some]

/-- Re-inserting entries with new ids is replaying the ops that insert them. -/
theorem reinsert_eq (hwf : e.Wf cfg) (entries : List LiveEntry) (hnodup : (entries.map LiveEntry.extId).Nodup)
    (hnew : ∀ entry ∈ entries, e.store.extToInt.lookup entry.extId = none)
    (hfits : ∀ entry ∈ entries, entry.vec.length = cfg.dim.toNat) :
    ∃ e', reinsert cfg entries e = (.ok (), e') ∧
      (entries.map LiveEntry.insertOp).foldlM (replayOp cfg) e = .ok e' := by
  induction entries generalizing e with
  | nil => exact ⟨e, rfl, rfl⟩
  | cons entry entries ih =>
      obtain ⟨hentry, hnew⟩ := List.forall_mem_cons.mp hnew
      obtain ⟨hfit, hfits⟩ := List.forall_mem_cons.mp hfits
      obtain ⟨hout, hnodup⟩ := List.nodup_cons.mp hnodup
      have hdim : UInt32.ofNat entry.vec.length = e.store.dim := by
        rw [hfit, hwf.dim_eq, UInt32.ofNat_toNat]
      have happly := apply_new hentry hdim entry.metadata
      have hnone : e.store.resolve entry.extId = none := by
        rw [VectorStore.resolve, hentry]
      obtain ⟨index, hadd, -, -⟩ := hwf.add_appended entry.extId entry.vec entry.metadata
      have hmutate : e.mutate cfg entry.insertOp = (.ok e.store.slotCount,
          { e with store := e.store.appendSlot entry.extId entry.vec entry.metadata, index := index }) := by
        simp only [Engine.mutate, LiveEntry.insertOp, happly, hnone, Option.isNone_none, if_true, hadd]
      have hmut := hwf.mutate entry.insertOp
      rw [hmutate] at hmut
      have hfresh : ∀ other ∈ entries,
        (e.store.appendSlot entry.extId entry.vec entry.metadata).extToInt.lookup
          other.extId = none := by
        intro other hother
        have hne : other.extId ≠ entry.extId := fun heq => hout (heq ▸ List.mem_map_of_mem hother)
        exact (Finmap.lookup_insert_of_ne _ hne).trans (hnew other hother)
      obtain ⟨e', hreinsert, hreplay⟩ := ih (hmut.wf hwf) hnodup hfresh hfits
      refine ⟨e', ?_, ?_⟩
      · rw [reinsert, VectorStore.insert, happly]
        simp only [hadd]
        exact hreinsert
      · rw [List.map_cons, List.foldlM_cons, replayOp_eq, hmutate]
        exact hreplay

omit [LinearOrder Score] in
theorem snapshotOps_acceptable (hwf : e.Wf cfg) : ∀ op ∈ (liveSlots e.store).map (snapshotOp e.store),
    Acceptable cfg.dim op := by
  intro op hop
  obtain ⟨id, hid, rfl⟩ := List.mem_map.mp hop
  have hlt := hwf.ids.lt_of_isLive ((mem_liveSlots hwf.ids).mp hid)
  exact ⟨fun hdelete => (by cases hdelete), fun _ => (length_get hwf.ids hlt).trans (congrArg _ hwf.dim_eq)⟩

/-- Compaction builds the engine a replay of its snapshot builds, and keeps the content. -/
theorem Wf.rebuild_eq (hwf : e.Wf cfg) :
    ∃ e', e.rebuild cfg = (.ok (), e') ∧ e'.Wf cfg ∧ e'.store.Wf ∧ e'.disk = e.disk ∧
      e'.store.content = e.store.content ∧
      ((liveSlots e.store).map (snapshotOp e.store)).foldlM (replayOp cfg)
        ⟨{ dim := cfg.dim }, Index.new cfg, e.disk⟩ =
        .ok e' := by
  have hinit := wf_initial hwf.dim_ne e.disk
  have hids : (liveEntries e.store).map LiveEntry.extId = (liveSlots e.store).map e.store.externalId := by
    rw [liveEntries, List.map_map]
    rfl
  obtain ⟨e', hreinsert, hreplay⟩ := reinsert_eq hinit (liveEntries e.store) (hids ▸ nodup_liveIds hwf.ids)
    (fun _ _ => Finmap.lookup_empty _) fun entry hentry => by
      obtain ⟨id, hid, rfl⟩ := List.mem_map.mp hentry
      have hlt := hwf.ids.lt_of_isLive ((mem_liveSlots hwf.ids).mp hid)
      exact (length_get hwf.ids hlt).trans (congrArg _ hwf.dim_eq)
  rw [liveEntries_map_insertOp hwf.ids] at hreplay
  obtain ⟨e'', heq, hreplayed⟩ := replayOps_yields hinit (VectorStore.wf_empty cfg.dim) _
    (snapshotOps_acceptable hwf)
  rw [hreplay] at heq
  cases heq
  refine ⟨e', ?_, hreplayed.wf, hreplayed.store, hreplayed.disk_eq, ?_, hreplay⟩
  · rw [rebuild, VectorStore.new, if_neg hwf.dim_ne]
    exact hreinsert
  · have hempty : (VectorStore.mk cfg.dim [] [] [] [] ∅ 0).content = fun _ => none :=
      funext (VectorStore.content_empty cfg.dim)
    rw [hreplayed.content_eq, ← replay_snapshotOps hwf.ids, List.map_map, hwf.dim_eq]
    exact congrArg _ hempty

end Compaction

end Engine

end ToyVdb
