import ToyVdb.Engine.Machine

/-!
# A process that is killed

A process that is killed leaves the files as its last system call did, and maybe a piece of what it was writing.
So under any policy an engine that is opened again is as it was before the call that was under way, or as it
would have been after it.

Scores are linearly ordered: undefined distances are left out.
-/

namespace ToyVdb

open WriteBack

/-- What is asked of a durable engine. -/
inductive Request
  | call (c : Call)
  | flush

def Request.step : Request → Step
  | .call c => c.step
  | .flush => .flush

namespace Engine

open Outcome

section Exec

variable {Score : Type} [LT Score] [DecidableLT Score] (cfg : EngineConfig Score) (policy : SyncPolicy)

/-- The system calls of a request. -/
def requestCalls (e : Engine) (order : IterOrder) : Request → List (Syscall FileName UInt8)
  | .call c => e.syscalls cfg policy order c
  | .flush => FileLogStore.syncCalls policy

def Machine.request (m : Machine) (order : IterOrder) (next : Request) : Except Error Machine := do
  let e ← m.engine.step cfg order next.step
  pure ⟨e, exec m.dir (m.engine.requestCalls cfg policy order next)⟩

def Machine.requests (m : Machine) (run : List (IterOrder × Request)) : Except Error Machine :=
  run.foldlM (fun m next => m.request cfg policy next.1 next.2) m

end Exec

variable {Score : Type} {cfg : EngineConfig Score} {policy : SyncPolicy} {m m' : Machine} {order : IterOrder}
  {base log : List Record} {tail : Bytes} {content : Bytes → Option Entry} {disk disk' : Disk}
  {dir : Dir FileName UInt8} {done : List (Syscall FileName UInt8)}

theorem Machine.step_of_request [LT Score] [DecidableLT Score] {next : Request}
    (hrequest : m.request cfg policy order next = .ok m') :
    m.engine.step cfg order next.step = .ok m'.engine := by
  obtain ⟨e', hstep, hreturned⟩ := exists_of_bind_eq_ok hrequest
  cases hreturned
  exact hstep

/-! ### What the files record -/

theorem Recorded.of_files (h : Recorded cfg (some disk) base log [] content) (hwal : disk'.wal = disk.wal ++ tail)
    (hblob : disk'.blobs.lookup kSnapshotKey = disk.blobs.lookup kSnapshotKey) :
    Recorded cfg (some disk') base log tail content := by
  obtain ⟨_, heq, hon⟩ := h.onDisk
  cases heq
  refine ⟨⟨disk', rfl, ?_, ?_, hon.readable⟩, h.acceptable, h.content_eq⟩
  · rw [hwal, hon.wal_eq, List.append_nil]
  · rw [hblob]
    exact hon.blob

/-- The engine and its files say the same. -/
structure Kept (cfg : EngineConfig Score) (m : Machine) : Prop extends Durable cfg m.engine where
  holds : ∀ disk, m.engine.disk = some disk → Holds m.dir disk

theorem kept_boot (hdim : cfg.dim ≠ 0) : Kept cfg ⟨fresh cfg {}, bootDir⟩ where
  toDurable := durable_fresh hdim
  holds disk hdisk := by
    cases hdisk
    exact holds_bootDir

theorem holds_snapshotCalls (h : Holds dir disk) (s : VectorStore) (order : IterOrder) :
    Holds (exec dir (snapshotCalls s order))
      { disk with wal := [], blobs := disk.blobs.put kSnapshotKey (snapshotData s order) } := by
  rw [snapshotCalls, exec_append]
  exact (h.put kSnapshotKey (snapshotData s order)).truncate

theorem files_eq (h : Holds dir disk) (h' : Holds dir disk') :
    disk'.wal = disk.wal ∧ disk'.blobs.lookup kSnapshotKey = disk.blobs.lookup kSnapshotKey :=
  ⟨Option.some.inj ((h' .wal).symm.trans (h .wal)), (h' (.blob kSnapshotKey)).symm.trans (h (.blob kSnapshotKey))⟩

/-- Until the log is truncated, it is as it was; the blob is the old one or the new one. -/
theorem exec_cut_snapshotCalls (dir : Dir FileName UInt8) {s : VectorStore} (hcut : Cut (snapshotCalls s order) done) :
    done = snapshotCalls s order ∨
      exec dir done .wal = dir .wal ∧ (exec dir done (.blob kSnapshotKey) = dir (.blob kSnapshotKey) ∨
        exec dir done (.blob kSnapshotKey) = some (File.empty.write (snapshotData s order))) := by
  have hne : FileName.blob kSnapshotKey ≠ .blob (kSnapshotKey ++ ascii ".tmp") := fun heq =>
    FileBlobStore.tmp_ne kSnapshotKey (FileName.blob.inj heq).symm
  cases hcut with
  | stop => exact .inr ⟨rfl, .inl rfl⟩
  | step _ hcut =>
      cases hcut with
      | stop => exact .inr (by simp [exec, Syscall.exec, hne])
      | piece => exact .inr (by simp [exec, Syscall.exec, hne])
      | step _ hcut =>
          cases hcut with
          | stop => exact .inr (by simp [exec, Syscall.exec, hne])
          | step _ hcut =>
              cases hcut with
              | stop =>
                  refine .inr ⟨rfl, .inr ?_⟩
                  show exec dir (FileBlobStore.putCalls kSnapshotKey (snapshotData s order)) _ = _
                  rw [exec_putCalls, Function.update_self]
              | step _ hcut =>
                  cases hcut with
                  | stop => exact .inl rfl

section Step

variable [LinearOrder Score]

theorem Kept.holds_request (h : Kept cfg m) {e' : Engine} {next : Request}
    (hstep : m.engine.step cfg order next.step = .ok e') :
    ∀ disk', e'.disk = some disk' → Holds (exec m.dir (m.engine.requestCalls cfg policy order next)) disk' := by
  obtain ⟨base, log, hrecorded⟩ := h.recorded
  obtain ⟨disk, hdisk, -⟩ := hrecorded.onDisk
  have hholds := h.holds disk hdisk
  intro disk' hdisk'
  cases next with
  | flush =>
      cases hstep
      cases hdisk.symm.trans hdisk'
      have hsync := hholds.appends (appends_syncCalls policy)
      rwa [List.append_nil] at hsync
  | call c =>
      cases c with
      | write w =>
          cases hstep
          have hwritten := h.wf.write order w
          show Holds (exec m.dir (m.engine.syscalls cfg policy order (.write w))) disk'
          rw [syscalls]
          by_cases hid : Logged m.engine w
          · obtain ⟨r, hmut⟩ := hwritten.mutated hid
            have hsame : (w.exec cfg order m.engine).2.disk = some disk' := hdisk'
            rw [hmut.applied.2, logOp, hdisk] at hsame
            cases hsame
            rw [if_neg fun hskip => hid.elim hskip.1 fun hlive => hlive hskip.2]
            exact hholds.appends (appends_appendCalls policy _)
          · have hsame : (w.exec cfg order m.engine).2.disk = some disk' := hdisk'
            rw [hwritten.eq_of_not_logged hid, hdisk] at hsame
            cases hsame
            rw [Logged, not_or, not_not] at hid
            rw [if_pos hid]
            exact hholds
      | snapshot =>
          cases hstep
          have hsame : (m.engine.snapshot order).disk = some disk' := hdisk'
          rw [snapshot, truncateWal, putSnapshot, hdisk] at hsame
          cases hsame
          exact holds_snapshotCalls hholds m.engine.store order
      | compact =>
          obtain ⟨c, hrebuild, -, -, hsame, -⟩ := h.wf.rebuild_eq
          cases hstep
          have hfinal : (m.engine.compact cfg order).2.disk = some disk' := hdisk'
          show Holds (exec m.dir (m.engine.syscalls cfg policy order .compact)) disk'
          rw [compact, hrebuild] at hfinal
          rw [syscalls, hrebuild]
          simp only [snapshot, truncateWal, putSnapshot, hsame.trans hdisk] at hfinal
          cases hfinal
          exact holds_snapshotCalls hholds c.store order

theorem Kept.request (h : Kept cfg m) (policy : SyncPolicy) (next : Request)
    (hvalid : Valid cfg m.engine order next.step) :
    Yields (m.request cfg policy order next) (Kept cfg) := by
  obtain ⟨e', hstep, hdurable, -⟩ :=
    h.toDurable.step_yields order next.step (accepted_of_fitsDim h.wf hvalid.1) hvalid.2
  refine ⟨⟨e', exec m.dir (m.engine.requestCalls cfg policy order next)⟩, ?_, hdurable, h.holds_request hstep⟩
  rw [Machine.request, hstep]
  rfl

theorem Kept.requests (h : Kept cfg m) (policy : SyncPolicy) (run : List (IterOrder × Request))
    (hvalid : Always cfg (Valid cfg) m.engine (run.map fun next => (next.1, next.2.step))) :
    Yields (m.requests cfg policy run) (Kept cfg) := by
  induction run generalizing m with
  | nil => exact .pure h
  | cons next run ih =>
      obtain ⟨m', hrequest, h'⟩ := h.request policy next.2 hvalid.1
      rw [Machine.requests, List.foldlM_cons, hrequest]
      exact ih h' (hvalid.2 _ (Machine.step_of_request hrequest))

/-! ### Opened again -/

theorem Kept.reopens (h : Kept cfg m) (hholds : Holds dir disk') {f g : File UInt8} (hf : m.dir .wal = some f)
    (hg : dir .wal = some g) (hbytes : g.bytes = f.bytes ++ tail) (htail : FileLogStore.next tail = none)
    (hblob : dir (.blob kSnapshotKey) = m.dir (.blob kSnapshotKey)) :
    Yields (create cfg (some disk')) fun e => e.store.content = m.engine.store.content := by
  obtain ⟨base, log, hrecorded⟩ := h.recorded
  obtain ⟨disk, hdisk, -⟩ := hrecorded.onDisk
  have hmem := h.holds disk hdisk
  rw [hdisk] at hrecorded
  refine ((hrecorded.of_files ?_ ?_).recovers htail h.wf.dim_ne).mono fun e he => he.2.2.2
  · rw [hholds.wal_eq hg, hbytes, hmem.wal_eq hf]
  · exact (hholds (.blob kSnapshotKey)).symm.trans ((congrArg _ hblob).trans (hmem (.blob kSnapshotKey)))

theorem Kept.reopens_self (h : Kept cfg m) (hholds : Holds m.dir disk') :
    Yields (create cfg (some disk')) fun e => e.store.content = m.engine.store.content := by
  obtain ⟨f, hf, -⟩ := hholds.wal
  exact h.reopens hholds hf hf (List.append_nil _).symm FileLogStore.next_nil rfl

/-- A call on an entry: the record is behind the log, a piece of it, or nothing. -/
theorem Kept.killed_write (h : Kept cfg m) {w : Write} (hvalid : Valid cfg m.engine order (.call (.write w)))
    (hcut : Cut (m.engine.syscalls cfg policy order (.write w)) done) (hholds : Holds (exec m.dir done) disk') :
    Yields (create cfg (some disk')) fun e =>
      e.store.content = m.engine.store.content ∨
        e.store.content = (w.exec cfg order m.engine).2.store.content := by
  rw [syscalls] at hcut
  by_cases hid : Logged m.engine w
  · rw [if_neg fun hskip => hid.elim hskip.1 fun hlive => hlive hskip.2] at hcut
    obtain ⟨base, log, hrecorded⟩ := h.recorded
    obtain ⟨disk, hdisk, -⟩ := hrecorded.onDisk
    have hmem := h.holds disk hdisk
    obtain ⟨f, hf, hfbytes⟩ := hmem.wal
    obtain ⟨g, piece, hexec, hbytes, hpiece, -⟩ := (appends_appendCalls policy _).exec_cut hf hcut
    rw [hexec] at hholds
    have hblob : Function.update m.dir .wal (some g) (.blob kSnapshotKey) = m.dir (.blob kSnapshotKey) :=
      Function.update_of_ne FileName.noConfusion ..
    have hsmall := hvalid.2 hid
    by_cases hwhole : piece = FileLogStore.frame (encodeOp order w.op)
    · have hop := acceptable_of_not_rejects h.wf hid hsmall (accepted_of_fitsDim h.wf hvalid.1)
      obtain ⟨-, hcontent⟩ := (h.wf.write order w).content_eq h.wf h.store fun _ => length_vec_lt hsmall
      have happend := hrecorded.append (r := Record.mk order w.op) ⟨hsmall, op_delete⟩ hop
      rw [hdisk] at happend
      refine ((happend.of_files ?_ ?_).recovers FileLogStore.next_nil h.wf.dim_ne).mono fun e he => .inr ?_
      · rw [hholds.wal_eq (Function.update_self ..), hbytes, hwhole, hfbytes, List.append_nil]
        rfl
      · exact (hholds (.blob kSnapshotKey)).symm.trans ((congrArg _ hblob).trans (hmem (.blob kSnapshotKey)))
      · rw [he.2.2.2, hcontent]
    · have htail := FileLogStore.next_torn hsmall hpiece hwhole
      exact (h.reopens hholds hf (Function.update_self ..) hbytes htail hblob).mono fun e he => .inl he
  · rw [Logged, not_or, not_not] at hid
    rw [if_pos hid] at hcut
    cases hcut
    exact (h.reopens_self hholds).mono fun e he => .inl he

/-- A snapshot that has not truncated the log yet: the log is replayed over the content it led to. -/
theorem Kept.killed_snapshot (h : Kept cfg m) {c : Engine} (hsane : Sane cfg c) (hsame : c.disk = m.engine.disk)
    (hcontent : c.store.content = m.engine.store.content)
    (hcut : Cut (snapshotCalls c.store order) done) (hholds : Holds (exec m.dir done) disk') :
    Yields (create cfg (some disk')) fun e => e.store.content = m.engine.store.content := by
  obtain ⟨base, log, hrecorded⟩ := h.recorded
  obtain ⟨disk, hdisk, -⟩ := hrecorded.onDisk
  have hmem := h.holds disk hdisk
  obtain ⟨f, hf, hfbytes⟩ := hmem.wal
  have hput := hsane.recorded_putSnapshot order (by rw [hsame, hcontent]; exact hrecorded)
  rw [putSnapshot, hsame, hdisk] at hput
  have hlookup : (disk.blobs.put kSnapshotKey (snapshotData c.store order)).lookup kSnapshotKey =
      some (snapshotData c.store order) := FileBlobStore.lookup_put ..
  rcases exec_cut_snapshotCalls m.dir hcut with rfl | ⟨hwal, hold | hnew⟩
  · have hsnapshot := hsane.recorded_snapshot order (hsame.trans hdisk)
    rw [snapshot, truncateWal, putSnapshot, hsame, hdisk] at hsnapshot
    obtain ⟨hwal', hblob'⟩ := files_eq (holds_snapshotCalls hmem c.store order) hholds
    have hfiles := hsnapshot.of_files (hwal'.trans (List.append_nil _).symm) hblob'
    exact (hfiles.recovers FileLogStore.next_nil h.wf.dim_ne).mono fun e he => by rw [he.2.2.2, hcontent]
  · exact h.reopens hholds hf (hwal.trans hf) (List.append_nil _).symm FileLogStore.next_nil hold
  · have hfiles := hput.of_files ((hholds.wal_eq (hwal.trans hf)).trans (hfbytes.trans (List.append_nil _).symm))
      ((hholds (.blob kSnapshotKey)).symm.trans ((congrArg _ hnew).trans hlookup.symm))
    exact (hfiles.recovers FileLogStore.next_nil h.wf.dim_ne).mono fun e he => by rw [he.2.2.2, hcontent]

theorem Kept.killed (h : Kept cfg m) (next : Request) (hvalid : Valid cfg m.engine order next.step)
    (hrequest : m.request cfg policy order next = .ok m')
    (hcut : Cut (m.engine.requestCalls cfg policy order next) done) (hholds : Holds (exec m.dir done) disk') :
    Yields (create cfg (some disk')) fun e =>
      e.store.content = m.engine.store.content ∨ e.store.content = m'.engine.store.content := by
  have hstep := Machine.step_of_request hrequest
  cases next with
  | flush =>
      obtain ⟨base, log, hrecorded⟩ := h.recorded
      obtain ⟨disk, hdisk, -⟩ := hrecorded.onDisk
      obtain ⟨f, hf, -⟩ := (h.holds disk hdisk).wal
      obtain ⟨g, piece, hexec, hbytes, hpiece, -⟩ := (appends_syncCalls policy).exec_cut hf hcut
      rw [List.prefix_nil.mp hpiece] at hbytes
      rw [hexec] at hholds
      refine (h.reopens hholds hf (Function.update_self ..) hbytes FileLogStore.next_nil ?_).mono fun e he => .inl he
      exact Function.update_of_ne FileName.noConfusion ..
  | call c =>
      cases c with
      | write w =>
          rw [← Except.ok.inj hstep]
          exact h.killed_write hvalid hcut hholds
      | snapshot => exact (h.killed_snapshot h.toSane rfl rfl hcut hholds).mono fun e he => .inl he
      | compact =>
          obtain ⟨c, hrebuild, hwf, hstore, hsame, hcontent, -⟩ := h.wf.rebuild_eq
          have hcut' : Cut (m.engine.syscalls cfg policy order .compact) done := hcut
          rw [syscalls, hrebuild] at hcut'
          exact (h.killed_snapshot (h.toSane.congr hwf hstore hcontent) hsame hcontent hcut' hholds).mono
            fun e he => .inl he

end Step

/-- **A killed process loses nothing that was acknowledged.** After any run of valid calls, snapshots,
compactions and flushes on an engine that was opened on an empty directory, under any sync policy, the engine
opens with the content they produced. And if it is killed in the middle of a further one, after some of its
system calls and maybe a piece of a write, it opens with the content from before or the content from after. -/
theorem killed_request_is_atomic [LinearOrder Score] (cfg : EngineConfig Score) (policy : SyncPolicy) (e₀ : Engine)
    (hcreate : create cfg (some {}) = .ok e₀) (run : List (IterOrder × Request))
    (hvalid : Always cfg (Valid cfg) e₀ (run.map fun next => (next.1, next.2.step))) :
    ∃ m, (Machine.mk e₀ bootDir).requests cfg policy run = .ok m ∧
      (∀ disk : Disk, Holds m.dir disk →
        ∃ e, create cfg (some disk) = .ok e ∧ e.store.content = m.engine.store.content) ∧
      ∀ (order : IterOrder) (next : Request), Valid cfg m.engine order next.step →
        ∃ m', m.request cfg policy order next = .ok m' ∧
          ∀ done, Cut (m.engine.requestCalls cfg policy order next) done →
            ∀ disk : Disk, Holds (exec m.dir done) disk →
              ∃ e, create cfg (some disk) = .ok e ∧
                (e.store.content = m.engine.store.content ∨ e.store.content = m'.engine.store.content) := by
  have hblank : (some ({} : Disk)).getD {} = {} := rfl
  obtain ⟨hdim, rfl⟩ := create_blank hblank hcreate
  obtain ⟨m, hrequests, h⟩ := (kept_boot hdim).requests policy run hvalid
  refine ⟨m, hrequests, fun disk hholds => h.reopens_self hholds, fun order next hnext => ?_⟩
  obtain ⟨m', hrequest, -⟩ := h.request policy next hnext
  exact ⟨m', hrequest, fun done hcut disk hholds => h.killed next hnext hrequest hcut hholds⟩

/-- An insert, a snapshot, and an insert that is killed between the header of its record and the record. -/
theorem killed_request_is_atomic_sample :
    ∃ m, (Machine.mk (fresh (sampleConfig .flat ⟨1, 1, 64, fun _ => 0⟩) {}) bootDir).requests
        (sampleConfig .flat ⟨1, 1, 64, fun _ => 0⟩) .off
        [(.byKey, .call (.write (.insert (ascii "a") [0] ∅))), (.byKey, .call .snapshot)] = .ok m ∧
      ∃ m', m.request (sampleConfig .flat ⟨1, 1, 64, fun _ => 0⟩) .off .byKey
          (.call (.write (.insert (ascii "b") [0] ∅))) = .ok m' ∧
        ∀ disk, Holds (exec m.dir ((FileLogStore.appendCalls .off
            (encodeOp .byKey ⟨.insert, ascii "b", [0], some ∅⟩)).take 1)) disk →
          ∃ e, create (sampleConfig .flat ⟨1, 1, 64, fun _ => 0⟩) (some disk) = .ok e ∧
            (e.store.content = m.engine.store.content ∨ e.store.content = m'.engine.store.content) := by
  obtain ⟨m, hrequests, -, hkilled⟩ := killed_request_is_atomic (sampleConfig .flat ⟨1, 1, 64, fun _ => 0⟩) .off _ rfl
    [(.byKey, .call (.write (.insert (ascii "a") [0] ∅))), (.byKey, .call .snapshot)]
    ⟨⟨fun _ => rfl, fun _ => by decide +kernel⟩, fun _ _ => ⟨⟨trivial, trivial⟩, fun _ _ => trivial⟩⟩
  obtain ⟨m', hrequest, hatomic⟩ := hkilled .byKey (.call (.write (.insert (ascii "b") [0] ∅)))
    ⟨fun _ => rfl, fun _ => by decide +kernel⟩
  exact ⟨m, hrequests, m', hrequest, fun disk hholds => hatomic _ (.step _ (.stop _)) disk hholds⟩

end Engine

end ToyVdb
