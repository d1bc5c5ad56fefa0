import ToyVdb.Engine.Machine

/-!
# Power loss

With every append synced, a crash finds the log as it was, since each record is synced before its
call returns. It need not find the snapshot: the blob is renamed into place without being synced,
and the log that could have made up for it is truncated right after. So what was live at a snapshot
is lost with it until it is logged again.

Scores are linearly ordered: undefined distances are left out.
-/

namespace ToyVdb

namespace Engine

open Outcome WriteBack

variable {Score : Type} {cfg : EngineConfig Score} {m : Machine} {base log : List Record}
  {x : Exposure} {order : IterOrder}
  {content : Bytes → Option Entry} {disk : Disk} {dir : Dir FileName UInt8} {tail : Bytes}

/-! ### After a crash -/

/-- The log leads to the content, from the snapshot and from nothing. -/
structure Settled (cfg : EngineConfig Score) (base log : List Record)
    (content : Bytes → Option Entry) : Prop where
  readable : ∀ r ∈ base ++ log, r.Readable
  acceptable : ∀ r ∈ base ++ log, Acceptable cfg.dim r.op
  nodup : (base.map fun r => r.op.extId).Nodup
  whole : replayContent cfg.dim ((base ++ log).map Record.op) (fun _ => none) = content
  alone : replayContent cfg.dim (log.map Record.op) (fun _ => none) = content

theorem Recorded.settled {disk? : Option Disk} (h : Recorded cfg disk? base log tail content)
    (hnodup : (base.map fun r => r.op.extId).Nodup)
    (halone : replayContent cfg.dim (log.map Record.op) (fun _ => none) = content) :
    Settled cfg base log content := by
  obtain ⟨disk, -, hon⟩ := h.onDisk
  exact ⟨hon.readable, h.acceptable, hnodup, h.content_eq, halone⟩

theorem Settled.append (h : Settled cfg base log content) {r : Record} (hr : r.Readable)
    (hop : Acceptable cfg.dim r.op) :
    Settled cfg base (log ++ [r]) (KeyedLog.write content (r.op.write cfg.dim)) := by
  refine ⟨fun r' hr' => ?_, fun r' hr' => ?_, h.nodup, ?_, ?_⟩
  · rw [← List.append_assoc, List.mem_append, List.mem_singleton] at hr'
    exact hr'.elim (h.readable r') fun heq => heq ▸ hr
  · rw [← List.append_assoc, List.mem_append, List.mem_singleton] at hr'
    exact hr'.elim (h.acceptable r') fun heq => heq ▸ hop
  · rw [← List.append_assoc, List.map_append, replayContent_append, h.whole]
    rfl
  · rw [List.map_append, replayContent_append, h.alone]
    rfl

/-- A blob of a snapshot, or none of an empty one. -/
def Published (dir : Dir FileName UInt8) (base : List Record) : Prop :=
  (∃ f, dir (.blob kSnapshotKey) = some f ∧ f.bytes = (base.map Record.bytes).flatMap snapshotFrame) ∨
    dir (.blob kSnapshotKey) = none ∧ base = []

theorem Published.blobRecords (h : Published dir base) (hreadable : ∀ r ∈ base, r.Readable)
    (hcrash : Crash dir disk.files) :
    ∃ n, blobRecords disk = (base.take n).map Record.bytes := by
  rcases h with ⟨f, hf, hbytes⟩ | ⟨hnone, rfl⟩
  · obtain ⟨image, himage, n, -, hcut⟩ := hcrash.survives hf
    obtain ⟨k, hk⟩ := snapshotRecords_take (base.map Record.bytes) (small_of_readable hreadable) n
    refine ⟨k, ?_⟩
    rw [Engine.blobRecords, show disk.blobs.lookup kSnapshotKey = some image from himage,
      List.map_take, ← hk, ← hbytes, ← hcut]
  · refine ⟨0, ?_⟩
    rw [Engine.blobRecords, show disk.blobs.lookup kSnapshotKey = none from hcrash.absent hnone]
    rfl

theorem Guarded.published (h : Guarded cfg m base log x) : Published m.dir base := by
  obtain ⟨disk, hdisk, hon⟩ := h.recorded.onDisk
  have hholds := h.holds disk hdisk
  rcases hon.blob with hblob | ⟨hblob, hnil⟩
  · exact .inl (hholds.blob hblob)
  · exact .inr ⟨hholds.blob_absent hblob, hnil⟩

theorem Guarded.wal_file (h : Guarded cfg m base log x) :
    ∃ f, m.dir .wal = some f ∧ f.Synced ∧ f.bytes = (log.map Record.bytes).flatMap FileLogStore.frame := by
  obtain ⟨disk, hdisk, hon⟩ := h.recorded.onDisk
  obtain ⟨f, hf, hbytes⟩ := (h.holds disk hdisk).wal
  exact ⟨f, hf, h.wal f hf, by rw [hbytes, hon.wal_eq, List.append_nil]⟩

/-- As long as nobody writes to it, the log comes back as it was. -/
theorem Guarded.wal_eq (h : Guarded cfg m base log x) (hkept : dir .wal = m.dir .wal)
    (hcrash : Crash dir disk.files) :
    disk.wal = (log.map Record.bytes).flatMap FileLogStore.frame ++ [] := by
  obtain ⟨f, hf, hsynced, hbytes⟩ := h.wal_file
  obtain ⟨image, himage, hsurvives⟩ := hcrash.survives (hkept.trans hf)
  rw [List.append_nil, ← hbytes, ← hsynced.eq_of_survives hsurvives]
  exact Option.some.inj himage

theorem Guarded.settled (h : Guarded cfg m base log x) (hrisk : x.atRisk = ∅) :
    Settled cfg base log m.engine.store.content := by
  refine h.recorded.settled h.nodup (funext fun id => ?_)
  rw [h.lost, hrisk, if_neg (Finset.notMem_empty id)]

variable [LinearOrder Score]

theorem reopen_yields (hblob : blobRecords disk = base.map Record.bytes)
    (hwal : disk.wal = (log.map Record.bytes).flatMap FileLogStore.frame ++ tail)
    (htail : FileLogStore.next tail = none)
    (hreadable : ∀ r ∈ base ++ log, r.Readable) (hops : ∀ r ∈ base ++ log, Acceptable cfg.dim r.op)
    (hdim : cfg.dim ≠ 0) :
    Yields (create cfg (some disk)) fun e =>
      e.store.content = replayContent cfg.dim ((base ++ log).map Record.op) fun _ => none := by
  have hlog : ∀ r ∈ log, r.Readable := fun r hr => hreadable r (List.mem_append_right _ hr)
  rw [create_eq_records disk hdim, hblob, hwal,
    FileLogStore.replay_frames _ (small_of_readable hlog) htail, ← List.map_append,
    foldlM_replayRecord _ hreadable]
  refine (replayFresh_yields disk hdim _ hops).mono fun e he => ?_
  rw [he.content_eq, content_fresh]
  rfl

/-- However much of the snapshot is left, the content is found. -/
theorem Settled.recovers (h : Settled cfg base log content) {n : Nat}
    (hblob : blobRecords disk = (base.take n).map Record.bytes)
    (hwal : disk.wal = (log.map Record.bytes).flatMap FileLogStore.frame ++ tail)
    (htail : FileLogStore.next tail = none)
    (hdim : cfg.dim ≠ 0) : Yields (create cfg (some disk)) fun e => e.store.content = content := by
  have hsub : ∀ r ∈ base.take n ++ log, r ∈ base ++ log := by
    intro r hr
    rw [List.mem_append] at hr ⊢
    exact hr.imp_left List.mem_of_mem_take
  refine (reopen_yields hblob hwal htail (fun r hr => h.readable r (hsub r hr))
    (fun r hr => h.acceptable r (hsub r hr)) hdim).mono
    fun e he => ?_
  have hwhole := h.whole
  rw [List.map_append, replayContent_append] at he hwhole
  rw [he, List.map_take, replayContent, replayContent, List.map_take]
  refine KeyedLog.replay_take ?_ hwhole h.alone n
  rw [List.map_map, List.map_map]
  exact h.nodup

theorem Settled.found (h : Settled cfg base log content) (hpublished : Published dir base)
    (hcrash : Crash dir disk.files)
    (hwal : disk.wal = (log.map Record.bytes).flatMap FileLogStore.frame ++ tail)
    (htail : FileLogStore.next tail = none)
    (hdim : cfg.dim ≠ 0) : Yields (create cfg (some disk)) fun e => e.store.content = content := by
  obtain ⟨n, hblob⟩ := hpublished.blobRecords (fun r hr => h.readable r (List.mem_append_left _ hr)) hcrash
  exact h.recovers hblob hwal htail hdim

/-- With nothing at risk, a crash does no harm. -/
theorem Guarded.recovers (h : Guarded cfg m base log x) (hrisk : x.atRisk = ∅)
    (hcrash : Crash m.dir disk.files) :
    Yields (create cfg (some disk)) fun e => e.store.content = m.engine.store.content :=
  (h.settled hrisk).found h.published hcrash (h.wal_eq rfl hcrash) FileLogStore.next_nil h.wf.dim_ne

/-- What is at risk is lost when nothing of the snapshot is left. -/
theorem Guarded.loses (h : Guarded cfg m base log x) {id : Bytes} (hid : id ∈ x.atRisk) :
    ∃ disk : Disk, Crash m.dir disk.files ∧
      Yields (create cfg (some disk)) fun e => e.store.content id ≠ m.engine.store.content id := by
  have hlive : m.engine.store.content id ≠ none := (h.live id).mp (h.atRisk hid)
  have hlost := h.lost id
  rw [if_pos hid] at hlost
  obtain ⟨disk, hdisk, hon⟩ := h.recorded.onDisk
  have hholds := h.holds disk hdisk
  obtain ⟨f, hf⟩ : ∃ f, m.dir (.blob kSnapshotKey) = some f := by
    rcases h.published with ⟨f, hf, -⟩ | ⟨-, rfl⟩
    · exact ⟨f, hf⟩
    · exact absurd ((congrFun h.recorded.content_eq id).symm.trans hlost) hlive
  let cut : Disk := { disk with blobs := disk.blobs.insert kSnapshotKey [] }
  have hlookup : cut.blobs.lookup kSnapshotKey = some [] := Finmap.lookup_insert _
  refine ⟨cut, fun name => ?_, ?_⟩
  · by_cases hname : name = .blob kSnapshotKey
    · rw [hname, hf, show cut.files (.blob kSnapshotKey) = some [] from hlookup]
      exact .some (File.survives_of_prefix (h.blob f hf) List.nil_prefix)
    · have hfiles : cut.files name = disk.files name := by
        cases name with
        | wal => rfl
        | blob key => exact Finmap.lookup_insert_of_ne _ fun heq => hname (congrArg FileName.blob heq)
      rw [hfiles, ← hholds name]
      cases m.dir name with
      | none => exact .none
      | some file => exact .some file.survives_self
  · have hblob : Engine.blobRecords cut = ([] : List Record).map Record.bytes := by
      rw [Engine.blobRecords, hlookup]
      rfl
    refine (reopen_yields hblob hon.wal_eq FileLogStore.next_nil
      (fun r hr => hon.readable r (List.mem_append_right _ hr))
      (fun r hr => h.recorded.acceptable r (List.mem_append_right _ hr)) h.wf.dim_ne).mono fun e he => ?_
    rw [he]
    exact fun heq => hlive (heq.symm.trans hlost)

/-! ### In the middle of a call -/

theorem exec_take_snapshotCalls (dir : Dir FileName UInt8) (s : VectorStore) (order : IterOrder) {j : Nat}
    (hj : j < (snapshotCalls s order).length) :
    exec dir ((snapshotCalls s order).take j) .wal = dir .wal ∧
      (exec dir ((snapshotCalls s order).take j) (.blob kSnapshotKey) = dir (.blob kSnapshotKey) ∨
        exec dir ((snapshotCalls s order).take j) (.blob kSnapshotKey) =
          some (File.empty.write (snapshotData s order))) := by
  have hne : FileName.blob kSnapshotKey ≠ .blob (kSnapshotKey ++ ascii ".tmp") := fun heq =>
    FileBlobStore.tmp_ne kSnapshotKey (FileName.blob.inj heq).symm
  change j < 4 at hj
  obtain rfl | rfl | rfl | rfl : j = 0 ∨ j = 1 ∨ j = 2 ∨ j = 3 := by omega
  · exact ⟨rfl, .inl rfl⟩
  · simp [exec, snapshotCalls, FileBlobStore.putCalls, Syscall.exec, hne]
  · simp [exec, snapshotCalls, FileBlobStore.putCalls, Syscall.exec, hne]
  · show exec dir (FileBlobStore.putCalls kSnapshotKey (snapshotData s order)) .wal = _ ∧
      (exec dir (FileBlobStore.putCalls kSnapshotKey (snapshotData s order)) (.blob kSnapshotKey) = _ ∨
        exec dir (FileBlobStore.putCalls kSnapshotKey (snapshotData s order)) (.blob kSnapshotKey) = _)
    rw [exec_putCalls]
    exact ⟨rfl, .inr (Function.update_self ..)⟩

/-- A snapshot that has not truncated the log yet. -/
theorem Guarded.recovers_snapshot (h : Guarded cfg m base log x) (hrisk : x.atRisk = ∅) {c : Engine}
    (hsane : Sane cfg c)
    (hsame : c.disk = m.engine.disk) (hcontent : c.store.content = m.engine.store.content) {j : Nat}
    (hj : j < (snapshotCalls c.store order).length)
    (hcrash : Crash (exec m.dir ((snapshotCalls c.store order).take j)) disk.files) :
    Yields (create cfg (some disk)) fun e => e.store.content = m.engine.store.content := by
  have hsettled := h.settled hrisk
  obtain ⟨hkept, hblob⟩ := exec_take_snapshotCalls m.dir c.store order hj
  have hwal := h.wal_eq hkept hcrash
  rcases hblob with hold | hnew
  · refine hsettled.found ?_ hcrash hwal FileLogStore.next_nil h.wf.dim_ne
    rw [Published, hold]
    exact h.published
  · -- the log is replayed over a piece of the content it led to
    have hrecorded : Recorded cfg c.disk base log [] c.store.content := by
      rw [hsame, hcontent]
      exact h.recorded
    have hput := hsane.recorded_putSnapshot order hrecorded
    rw [hcontent] at hput
    exact (hput.settled (nodup_snapshotRecs hsane.wf.ids order) hsettled.alone).found
      (.inl ⟨_, hnew, snapshotData_eq c.store order⟩) hcrash hwal
      FileLogStore.next_nil h.wf.dim_ne

/-- A call on an entry that has not synced its record yet. -/
theorem Guarded.recovers_write (h : Guarded cfg m base log x) (hrisk : x.atRisk = ∅) {w : Write}
    (hvalid : Valid cfg m.engine order (.call (.write w))) {j : Nat}
    (hj : j < (m.engine.syscalls cfg .always order (.write w)).length)
    (hcrash : Crash (exec m.dir ((m.engine.syscalls cfg .always order (.write w)).take j)) disk.files) :
    Yields (create cfg (some disk)) fun e =>
      e.store.content = m.engine.store.content ∨
        e.store.content = (w.exec cfg order m.engine).2.store.content := by
  have hsettled := h.settled hrisk
  have hid : Logged m.engine w := by
    by_contra hid
    rw [Logged, not_or, not_not] at hid
    rw [syscalls, if_pos hid] at hj
    exact absurd hj (Nat.not_lt_zero j)
  rw [syscalls, if_neg fun hskip => hid.elim hskip.1 fun hlive => hlive hskip.2] at hj hcrash
  have hsmall := hvalid.2 hid
  have hop := acceptable_of_not_rejects h.wf hid hsmall (accepted_of_fitsDim h.wf hvalid.1)
  obtain ⟨f, hf, hsynced, hbytes⟩ := h.wal_file
  obtain ⟨piece, hpiece, hdir⟩ := exec_take_appendCalls hf (encodeOp order w.op) hj
  rw [hdir] at hcrash
  obtain ⟨image, himage, hsurvives⟩ := hcrash.survives (Function.update_self ..)
  obtain ⟨n, hcut⟩ := hsynced.survives_write piece hsurvives
  have hwal : disk.wal = (log.map Record.bytes).flatMap FileLogStore.frame ++ piece.take n := by
    rw [← hbytes, ← hcut]
    exact Option.some.inj himage
  have hpublished : Published (Function.update m.dir .wal (some (f.write piece))) base := by
    rw [Published, Function.update_of_ne FileName.noConfusion]
    exact h.published
  have htorn := (List.take_prefix n piece).trans hpiece
  by_cases hwhole : piece.take n = FileLogStore.frame (encodeOp order w.op)
  · -- the record made it without the fsync
    have hwal' : disk.wal =
        ((log ++ [Record.mk order w.op]).map Record.bytes).flatMap FileLogStore.frame ++ [] := by
      rw [hwal, hwhole]
      simp [Record.bytes]
    have happend := hsettled.append (r := Record.mk order w.op) ⟨hsmall, op_delete⟩ hop
    obtain ⟨-, hcontent⟩ := (h.wf.write order w).content_eq h.wf h.store fun _ => length_vec_lt hsmall
    refine (happend.found hpublished hcrash hwal' FileLogStore.next_nil h.wf.dim_ne).mono fun e he => .inr ?_
    rw [he, hcontent]
  · have htail := FileLogStore.next_torn hsmall htorn hwhole
    exact (hsettled.found hpublished hcrash hwal htail h.wf.dim_ne).mono fun e he => .inl he

/-- **When acknowledged calls survive a power loss.** After any run of valid calls on an engine that
was opened on an empty directory and syncs every append, whatever a crash leaves of the files: the
engine opens with the content all these calls produced if and only if every id that was live at the
last snapshot or compaction has been inserted or erased since. And then it also does in the middle
of a further call, before the last system call of it, up to that call's own effect. -/
theorem power_loss_tolerated (cfg : EngineConfig Score) (e₀ : Engine)
    (hcreate : create cfg (some {}) = .ok e₀)
    (run : List (IterOrder × Call))
    (hvalid : Always cfg (Valid cfg) e₀ (run.map fun next => (next.1, next.2.step))) :
    ∃ m, (Machine.mk e₀ bootDir).calls cfg .always run = .ok m ∧
      ((∀ disk : Disk, Crash m.dir disk.files →
          ∃ e, create cfg (some disk) = .ok e ∧ e.store.content = m.engine.store.content) ↔
            (exposure run).atRisk = ∅) ∧
      ((exposure run).atRisk = ∅ → ∀ (order : IterOrder) (next : Call), Valid cfg m.engine order next.step →
        ∃ e', m.engine.step cfg order next.step = .ok e' ∧
          ∀ j < (m.engine.syscalls cfg .always order next).length, ∀ disk : Disk,
            Crash (exec m.dir ((m.engine.syscalls cfg .always order next).take j)) disk.files →
            ∃ e, create cfg (some disk) = .ok e ∧
              (e.store.content = m.engine.store.content ∨ e.store.content = e'.store.content)) := by
  have hblank : (some ({} : Disk)).getD {} = {} := rfl
  obtain ⟨hdim, rfl⟩ := create_blank hblank hcreate
  obtain ⟨m, hcalls, base, log, h⟩ := (guarded_boot hdim).calls run hvalid
  refine ⟨m, hcalls, ⟨fun hsafe => ?_, fun hrisk disk hcrash => h.recovers hrisk hcrash⟩,
    fun hrisk order next hnext => ?_⟩
  · rw [Finset.eq_empty_iff_forall_notMem]
    intro id hid
    obtain ⟨disk, hcrash, e, hopen, hne⟩ := h.loses hid
    obtain ⟨e', hopen', heq⟩ := hsafe disk hcrash
    cases hopen.symm.trans hopen'
    exact hne (congrFun heq id)
  · cases next with
    | write w => exact ⟨_, rfl, fun j hj disk hcrash => h.recovers_write hrisk hnext hj hcrash⟩
    | snapshot =>
        refine ⟨_, rfl, fun j hj disk hcrash => ?_⟩
        exact (h.recovers_snapshot hrisk h.toSane rfl rfl hj hcrash).mono fun e he => .inl he
    | compact =>
        obtain ⟨c, hrebuild, hwf, hstore, hsame, hcontent, -⟩ := h.wf.rebuild_eq
        have hsane : Sane cfg c := h.toSane.congr hwf hstore hcontent
        refine ⟨_, rfl, fun j hj disk hcrash => ?_⟩
        rw [syscalls, hrebuild] at hj hcrash
        exact (h.recovers_snapshot hrisk hsane hsame hcontent hj hcrash).mono fun e he => .inl he

/-- Insert an entry, take a snapshot, and insert the entry again. -/
def reinsertedCalls : List (IterOrder × Call) :=
  [.write (.insert (ascii "a") [0] ∅), .snapshot, .write (.insert (ascii "a") [0] ∅)].map
    fun call => (IterOrder.byKey, call)

theorem power_loss_tolerated_sample :
    ∃ m, (Machine.mk (fresh (sampleConfig .flat ⟨1, 1, 64, fun _ => 0⟩) {}) bootDir).calls
        (sampleConfig .flat ⟨1, 1, 64, fun _ => 0⟩) .always reinsertedCalls = .ok m ∧
      ∀ disk : Disk, Crash m.dir disk.files →
        ∃ e, create (sampleConfig .flat ⟨1, 1, 64, fun _ => 0⟩) (some disk) = .ok e ∧
          e.store.content (ascii "a") = some ⟨[0], ∅⟩ := by
  obtain ⟨m, hcalls, hiff, -⟩ :=
    power_loss_tolerated (sampleConfig .flat ⟨1, 1, 64, fun _ => 0⟩) (fresh _ {}) rfl reinsertedCalls
    ⟨⟨fun _ => rfl, fun _ => by decide +kernel⟩,
    fun _ _ => ⟨⟨trivial, trivial⟩, fun _ _ => ⟨⟨fun _ => rfl, fun _ => by decide +kernel⟩,
      fun _ _ => trivial⟩⟩⟩
  have hstored : ((Machine.mk (fresh (sampleConfig .flat ⟨1, 1, 64, fun _ => 0⟩) {}) bootDir).calls
      (sampleConfig .flat ⟨1, 1, 64, fun _ => 0⟩) .always reinsertedCalls).map
        (fun m => m.engine.store.content (ascii "a")) = .ok (some ⟨[0], ∅⟩) := by decide +kernel
  rw [hcalls] at hstored
  refine ⟨m, hcalls, fun disk hcrash => ?_⟩
  obtain ⟨e, hopen, hcontent⟩ := hiff.mpr (by decide +kernel) disk hcrash
  exact ⟨e, hopen, hcontent ▸ Except.ok.inj hstored⟩

/-- After an insert and a snapshot a crash can leave an empty log and an empty blob, and the entry is gone. -/
theorem power_loss_loses_snapshot :
    ∃ m, (Machine.mk (fresh (sampleConfig .flat ⟨1, 1, 64, fun _ => 0⟩) {}) bootDir).calls
        (sampleConfig .flat ⟨1, 1, 64, fun _ => 0⟩) .always (reinsertedCalls.take 2) = .ok m ∧
      m.engine.store.content (ascii "a") = some ⟨[0], ∅⟩ ∧
      Crash m.dir (Disk.mk [] (Finmap.singleton kSnapshotKey [])).files ∧
      ∃ e, create (sampleConfig .flat ⟨1, 1, 64, fun _ => 0⟩)
        (some ⟨[], Finmap.singleton kSnapshotKey []⟩) = .ok e ∧
        e.store.content (ascii "a") = none := by
  refine ⟨_, rfl, by decide +kernel, fun name => ?_, _, rfl, by decide +kernel⟩
  show Option.Rel _ (exec (exec bootDir (FileLogStore.appendCalls .always _)) (snapshotCalls _ .byKey) name) _
  rw [exec_snapshotCalls, exec_putCalls, exec_appendCalls rfl]
  cases name with
  | wal => exact .some ⟨0, Nat.le_refl 0, rfl⟩
  | blob name =>
      rw [Function.update_of_ne FileName.noConfusion]
      by_cases hkey : name = kSnapshotKey
      · rw [hkey, Function.update_self]
        exact .some ⟨0, Nat.le_refl 0, rfl⟩
      · have hne : FileName.blob name ≠ .blob kSnapshotKey := fun heq => hkey (FileName.blob.inj heq)
        have himage : (Disk.mk [] (Finmap.singleton kSnapshotKey [])).files (.blob name) = none := by
          simp [Disk.files, Finmap.lookup_eq_none, hkey]
        rw [Function.update_of_ne hne, himage]
        by_cases htmp : name = kSnapshotKey ++ ascii ".tmp"
        · rw [htmp, Function.update_self]
          exact .none
        · rw [Function.update_of_ne fun heq => htmp (FileName.blob.inj heq),
            Function.update_of_ne FileName.noConfusion]
          exact .none

end Engine

end ToyVdb
