import ToyVdb.Engine.Recovery
import ToyVdb.Disk.Syscalls

/-!
# The engine and its files

A durable engine as the operating system sees it: every call makes system calls on the files of the
directory, which are behind a write-back cache. The invariant says what of the files is safe, and
for which ids the log alone would not do: those that were live at the last snapshot and have been
neither inserted nor erased since.

The scores of the engine are linearly ordered, so that a restart builds its index without an
undefined distance.
-/

namespace ToyVdb

/-- A call on a durable engine. -/
inductive Call
  | write (w : Write)
  | snapshot
  | compact

def Call.step : Call → Step
  | .write w => .call (.write w)
  | .snapshot => .snapshot
  | .compact => .call .compact

/-! ### What is at risk -/

/-- The ids that are live, and those of them for which only the last snapshot can vouch. -/
structure Exposure where
  live : Finset Bytes
  atRisk : Finset Bytes

def Exposure.call (x : Exposure) : Call → Exposure
  | .write (.insert id _ _) => ⟨insert id x.live, x.atRisk.erase id⟩
  | .write (.update _ _ _) => x
  | .write (.erase id) => ⟨x.live.erase id, x.atRisk.erase id⟩
  | .snapshot => ⟨x.live, x.live⟩
  | .compact => ⟨x.live, x.live⟩

def exposure (run : List (IterOrder × Call)) : Exposure := run.foldl (fun x next => x.call next.2) ⟨∅, ∅⟩

namespace Exposure

variable {w : Write}

theorem mem_write_of_ne (x : Exposure) {id : Bytes} (hid : id ≠ w.op.extId) :
    (id ∈ (x.call (.write w)).live ↔ id ∈ x.live) ∧ (id ∈ (x.call (.write w)).atRisk ↔ id ∈ x.atRisk) := by
  cases w with
  | insert key vec m =>
      change id ≠ key at hid
      simp [Exposure.call, hid]
  | update => exact ⟨Iff.rfl, Iff.rfl⟩
  | erase key =>
      change id ≠ key at hid
      simp [Exposure.call, hid]

/-- What an accepted op makes of an entry, of nothing, and of the id's exposure. -/
theorem mem_write_self (x : Exposure) {e? : Option Entry} (hlive : w.op.extId ∈ x.live ↔ e? ≠ none)
    (hrisk : x.atRisk ⊆ x.live)
    {dim : UInt32} (hop : w.op.type ≠ .delete → w.op.Fits dim) :
    (w.op.extId ∈ (x.call (.write w)).live ↔ w.op.effect dim e? ≠ none) ∧
      (w.op.extId ∈ (x.call (.write w)).atRisk → w.op.extId ∈ (x.call (.write w)).live) ∧
      w.op.effect dim (if w.op.extId ∈ x.atRisk then none else e?) =
        if w.op.extId ∈ (x.call (.write w)).atRisk then none else w.op.effect dim e? := by
  cases w with
  | insert key vec m =>
      have hfits := hop OpType.noConfusion
      simp only [Op.effect_insert rfl hfits]
      simp [Exposure.call, Write.op]
  | update key vec m? =>
      have hfits := hop OpType.noConfusion
      simp only [Op.effect_update rfl hfits]
      refine ⟨hlive.trans ?_, fun hmem => hrisk hmem, ?_⟩
      · rw [ne_eq, ne_eq, Option.map_eq_none_iff]
      · by_cases hmem : key ∈ x.atRisk
        · rw [if_pos (show (Write.update key vec m?).op.extId ∈ x.atRisk from hmem)]
          exact (if_pos hmem).symm
        · rw [if_neg (show (Write.update key vec m?).op.extId ∉ x.atRisk from hmem)]
          exact (if_neg hmem).symm
  | erase key =>
      have hdelete : (Write.erase key).op.type = .delete := rfl
      simp only [Op.effect_delete hdelete]
      simp [Exposure.call, Write.op]

section Tracked

variable {dim : UInt32} {content alone : Bytes → Option Entry}

/-- An accepted op and its call keep step: of the content and of what the log alone leads to. -/
theorem write_tracked (x : Exposure) (hlive : ∀ id, id ∈ x.live ↔ content id ≠ none)
    (hrisk : x.atRisk ⊆ x.live)
    (halone : ∀ id, alone id = if id ∈ x.atRisk then none else content id)
    (hop : w.op.type ≠ .delete → w.op.Fits dim) :
    (∀ id, id ∈ (x.call (.write w)).live ↔ KeyedLog.write content (w.op.write dim) id ≠ none) ∧
      (x.call (.write w)).atRisk ⊆ (x.call (.write w)).live ∧
      ∀ id, KeyedLog.write alone (w.op.write dim) id =
        if id ∈ (x.call (.write w)).atRisk then none else KeyedLog.write content (w.op.write dim) id := by
  obtain ⟨hlive', hrisk', halone'⟩ := x.mem_write_self (hlive w.op.extId) hrisk hop
  have hself : ∀ content : Bytes → Option Entry,
      KeyedLog.write content (w.op.write dim) w.op.extId = w.op.effect dim (content w.op.extId) :=
    fun content => KeyedLog.write_self content (w.op.write dim)
  refine ⟨fun id => ?_, fun id hmem => ?_, fun id => ?_⟩
  · by_cases hid : id = w.op.extId
    · rw [hid, hself]
      exact hlive'
    · rw [KeyedLog.write_of_ne _ _ hid, (x.mem_write_of_ne hid).1, hlive]
  · by_cases hid : id = w.op.extId
    · subst hid
      exact hrisk' hmem
    · rw [(x.mem_write_of_ne hid).2] at hmem
      exact (x.mem_write_of_ne hid).1.mpr (hrisk hmem)
  · by_cases hid : id = w.op.extId
    · rw [hid, hself, hself, halone]
      exact halone'
    · rw [KeyedLog.write_of_ne _ _ hid, KeyedLog.write_of_ne _ _ hid, halone]
      simp only [(x.mem_write_of_ne hid).2]

end Tracked

theorem write_absent (x : Exposure) (hop : w.op.type ≠ .insert) (hlive : w.op.extId ∉ x.live)
    (hrisk : x.atRisk ⊆ x.live) :
    x.call (.write w) = x := by
  cases w with
  | insert => exact absurd rfl hop
  | update => rfl
  | erase key =>
      change key ∉ x.live at hlive
      have hout : key ∉ x.atRisk := fun hmem => hlive (hrisk hmem)
      rw [Exposure.call, Finset.erase_eq_of_notMem hlive, Finset.erase_eq_of_notMem hout]

end Exposure

namespace Engine

open Outcome WriteBack

/-! ### The engine and its files -/

structure Machine where
  engine : Engine
  dir : Dir FileName UInt8

/-- An engine that was opened on an empty directory; its log has been created. -/
def bootDir : Dir FileName UInt8 := fun name => if name = .wal then some File.empty else none

/-- The system calls of a snapshot. -/
def snapshotCalls (s : VectorStore) (order : IterOrder) : List (Syscall FileName UInt8) :=
  FileBlobStore.putCalls kSnapshotKey (snapshotData s order) ++ FileLogStore.truncateCalls

section Exec

variable {Score : Type} [LT Score] [DecidableLT Score] (cfg : EngineConfig Score) (policy : SyncPolicy)

/-- The system calls of a call. -/
def syscalls (e : Engine) (order : IterOrder) : Call → List (Syscall FileName UInt8)
  | .write w =>
    if w.op.type ≠ .insert ∧ e.store.resolve w.op.extId = none then []
    else FileLogStore.appendCalls policy (encodeOp order w.op)
  | .snapshot => snapshotCalls e.store order
  | .compact =>
    match e.rebuild cfg with
    | (.error _, _) => []
    | (.ok (), e) => snapshotCalls e.store order

def Machine.call (m : Machine) (order : IterOrder) (call : Call) : Except Error Machine := do
  let e ← m.engine.step cfg order call.step
  pure ⟨e, exec m.dir (m.engine.syscalls cfg policy order call)⟩

def Machine.calls (m : Machine) (run : List (IterOrder × Call)) : Except Error Machine :=
  run.foldlM (fun m next => m.call cfg policy next.1 next.2) m

end Exec

variable {Score : Type} {cfg : EngineConfig Score} {m : Machine} {base log : List Record}
  {x : Exposure} {order : IterOrder}

/-! ### The invariant -/

/-- The directory records the content. The log alone records it too, up to the ids at risk, of which
it has nothing. All of the log is safe, and nothing of the snapshot. -/
structure Guarded (cfg : EngineConfig Score) (m : Machine) (base log : List Record) (x : Exposure) : Prop
    extends Sane cfg m.engine where
  recorded : Recorded cfg m.engine.disk base log [] m.engine.store.content
  nodup : (base.map fun r => r.op.extId).Nodup
  live : ∀ id, id ∈ x.live ↔ m.engine.store.content id ≠ none
  atRisk : x.atRisk ⊆ x.live
  lost : ∀ id, replayContent cfg.dim (log.map Record.op) (fun _ => none) id =
    if id ∈ x.atRisk then none else m.engine.store.content id
  holds : ∀ disk, m.engine.disk = some disk → Holds m.dir disk
  wal : ∀ f, m.dir .wal = some f → f.Synced
  blob : ∀ f, m.dir (.blob kSnapshotKey) = some f → f.synced = 0

theorem holds_bootDir : Holds bootDir {} := by
  intro name
  cases name with
  | wal => rfl
  | blob name => rfl

theorem guarded_boot (hdim : cfg.dim ≠ 0) : Guarded cfg ⟨fresh cfg {}, bootDir⟩ [] [] ⟨∅, ∅⟩ where
  toSane := (durable_fresh hdim).toSane
  recorded := by
    rw [content_fresh]
    exact recorded_empty cfg
  nodup := List.nodup_nil
  live id := by simp [content_fresh]
  atRisk := Finset.Subset.refl ∅
  lost id := by
    rw [if_neg (Finset.notMem_empty id), content_fresh]
    rfl
  holds disk hdisk := by
    cases hdisk
    exact holds_bootDir
  wal f hf := by
    cases hf
    rfl
  blob f hf := by cases hf

/-! ### Snapshots -/

theorem exec_snapshotCalls (dir : Dir FileName UInt8) (s : VectorStore) (order : IterOrder) :
    exec dir (snapshotCalls s order) =
      Function.update (exec dir (FileBlobStore.putCalls kSnapshotKey (snapshotData s order))) .wal
        (some File.empty) := by
  rw [snapshotCalls, exec_append, exec_truncateCalls]

theorem nodup_snapshotRecs {s : VectorStore} (h : s.Ids) (order : IterOrder) :
    ((snapshotRecs s order).map fun r => r.op.extId).Nodup := by
  rw [snapshotRecs, List.map_map]
  exact nodup_liveIds h

theorem Sane.guarded_snapshot {c : Engine} (h : Sane cfg c) {disk : Disk}
    (hdisk : c.disk = some disk) {dir : Dir FileName UInt8}
    (hholds : Holds dir disk) {live : Finset Bytes}
    (hlive : ∀ id, id ∈ live ↔ c.store.content id ≠ none) (order : IterOrder) :
    Guarded cfg ⟨c.snapshot order, exec dir (snapshotCalls c.store order)⟩
      (snapshotRecs c.store order) [] ⟨live, live⟩ where
  toSane := ⟨h.wf.snapshot order, h.store, h.small⟩
  recorded := h.recorded_snapshot order hdisk
  nodup := nodup_snapshotRecs h.wf.ids order
  live := hlive
  atRisk := Finset.Subset.refl live
  lost id := by
    by_cases hid : id ∈ live
    · rw [if_pos hid]
      rfl
    · rw [if_neg hid]
      exact (not_not.mp fun hsome => hid ((hlive id).mpr hsome)).symm
  holds disk' hdisk' := by
    have heq : (c.snapshot order).disk =
        some { disk with wal := [], blobs := disk.blobs.put kSnapshotKey (snapshotData c.store order) } := by
      rw [snapshot, truncateWal, putSnapshot, hdisk]
      rfl
    cases heq.symm.trans hdisk'
    rw [exec_snapshotCalls]
    exact (hholds.put kSnapshotKey (snapshotData c.store order)).truncate
  wal f hf := by
    dsimp only at hf
    rw [exec_snapshotCalls, Function.update_self] at hf
    cases hf
    rfl
  blob f hf := by
    dsimp only at hf
    rw [exec_snapshotCalls, Function.update_of_ne FileName.noConfusion, exec_putCalls,
      Function.update_self] at hf
    cases hf
    rfl

/-! ### Calls on entries -/

section Write

variable {w : Write}

/-- A call that logs its op: the record is synced, and settles the id unless it is an update. -/
theorem Guarded.logged (h : Guarded cfg m base log x)
    (hvalid : Valid cfg m.engine order (.call (.write w))) {n : Nat} {e' : Engine}
    (hid : Logged m.engine w) (hmut : Mutated cfg (m.engine.logOp order w.op) w.op (.ok n) e') :
    Guarded cfg ⟨e', exec m.dir (FileLogStore.appendCalls .always (encodeOp order w.op))⟩ base
      (log ++ [⟨order, w.op⟩])
      (x.call (.write w)) := by
  have hsmall := hvalid.2 hid
  have hwritten : Written cfg m.engine order w (.ok ()) e' := .done hid hmut
  obtain ⟨-, hcontent⟩ := hwritten.content_eq h.wf h.store fun _ => length_vec_lt hsmall
  have hok : ¬ m.engine.store.Rejects w.op := accepted_of_fitsDim h.wf hvalid.1
  obtain ⟨hlive, hrisk, hlost⟩ := x.write_tracked h.live h.atRisk h.lost hvalid.1
  obtain ⟨disk, hdisk, -⟩ := h.recorded.onDisk
  obtain ⟨f, hwal, -⟩ := (h.holds disk hdisk).wal
  refine ⟨h.toSane.written hvalid.2 hwritten, ?_, h.nodup, hcontent ▸ hlive, hrisk, fun id => ?_,
    fun disk' hdisk' => ?_,
    fun f' hf' => ?_, fun f' hf' => ?_⟩
  · rw [hmut.applied.2, hcontent]
    exact h.recorded.append (r := ⟨order, w.op⟩) ⟨hsmall, op_delete⟩
      (acceptable_of_not_rejects h.wf hid hsmall hok)
  · rw [List.map_append, replayContent_append, hcontent]
    exact hlost id
  · rw [hmut.applied.2, logOp, hdisk] at hdisk'
    cases hdisk'
    exact (h.holds disk hdisk).append (encodeOp order w.op)
  · dsimp only at hf'
    rw [exec_appendCalls hwal, Function.update_self] at hf'
    cases hf'
    rfl
  · dsimp only at hf'
    rw [exec_appendCalls hwal, Function.update_of_ne FileName.noConfusion] at hf'
    exact h.blob f' hf'

variable [LinearOrder Score]

theorem Guarded.write (h : Guarded cfg m base log x) (hvalid : Valid cfg m.engine order (.call (.write w))) :
    Yields (m.call cfg .always order (.write w)) fun m' => ∃ base' log',
      Guarded cfg m' base' log' (x.call (.write w)) := by
  have hwritten := h.wf.write order w
  have hok : ¬ m.engine.store.Rejects w.op := accepted_of_fitsDim h.wf hvalid.1
  refine .ok ⟨base, ?_⟩
  show ∃ log', Guarded cfg ⟨(w.exec cfg order m.engine).2,
    exec m.dir (m.engine.syscalls cfg .always order (.write w))⟩ base log' _
  rw [syscalls]
  generalize w.exec cfg order m.engine = result at hwritten ⊢
  obtain ⟨r, e'⟩ := result
  cases hwritten with
  | skipped hop hid =>
      have hout : w.op.extId ∉ x.live := by
        rw [h.live, not_not]
        exact VectorStore.content_eq_none_iff.mpr hid
      rw [if_pos ⟨hop, hid⟩, x.write_absent hop hout h.atRisk]
      exact ⟨log, h⟩
  | done hid hmut =>
      rw [if_neg fun hskip => hid.elim hskip.1 fun hlive => hlive hskip.2]
      exact ⟨_, h.logged hvalid hid hmut⟩
  | thrown hid hmut => exact absurd (hmut.rejects_iff.mpr ⟨_, rfl⟩) hok

end Write

variable [LinearOrder Score]

theorem Guarded.call (h : Guarded cfg m base log x) (call : Call)
    (hvalid : Valid cfg m.engine order call.step) :
    Yields (m.call cfg .always order call) fun m' => ∃ base' log',
      Guarded cfg m' base' log' (x.call call) := by
  obtain ⟨disk, hdisk, -⟩ := h.recorded.onDisk
  have hholds := h.holds disk hdisk
  cases call with
  | write w => exact h.write hvalid
  | snapshot => exact .ok ⟨_, _, h.toSane.guarded_snapshot hdisk hholds h.live order⟩
  | compact =>
      obtain ⟨c, hrebuild, hwf, hstore, hsame, hcontent, -⟩ := h.wf.rebuild_eq
      have hsane : Sane cfg c := h.toSane.congr hwf hstore hcontent
      refine .ok ⟨snapshotRecs c.store order, [], ?_⟩
      show Guarded cfg ⟨(m.engine.compact cfg order).2,
        exec m.dir (m.engine.syscalls cfg .always order .compact)⟩ _ _ _
      rw [compact, syscalls, hrebuild]
      exact hsane.guarded_snapshot (hsame.trans hdisk) hholds (hcontent ▸ h.live) order

theorem Machine.step_of_call {m' : Machine} {call : Call} (hcall : m.call cfg .always order call = .ok m') :
    m.engine.step cfg order call.step = .ok m'.engine := by
  obtain ⟨e', hstep, hreturned⟩ := exists_of_bind_eq_ok hcall
  cases hreturned
  exact hstep

theorem Guarded.calls (h : Guarded cfg m base log x) (run : List (IterOrder × Call))
    (hvalid : Always cfg (Valid cfg) m.engine (run.map fun next => (next.1, next.2.step))) :
    Yields (m.calls cfg .always run) fun m' =>
      ∃ base' log', Guarded cfg m' base' log' (run.foldl (fun x next => x.call next.2) x) := by
  induction run generalizing m base log x with
  | nil => exact .pure ⟨base, log, h⟩
  | cons next run ih =>
      obtain ⟨m', hcall, base', log', h'⟩ := h.call next.2 hvalid.1
      rw [Machine.calls, List.foldlM_cons, hcall]
      exact ih h' (hvalid.2 _ (Machine.step_of_call hcall))

end Engine

end ToyVdb
