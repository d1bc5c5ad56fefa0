import ToyVdb.Engine.Durable

/-!
# Recovery preserves the database

`Recorded` relates a directory to a content: replaying its snapshot and its log gives the content. A logged
call keeps the relation by appending the op it applies, a snapshot by writing the content down, and a
snapshot cut before the log is truncated because replaying the log over it changes nothing. So a restart finds
what was there.

Scores are linearly ordered, so this is about engines that have no undefined distance.
-/

namespace ToyVdb

namespace Engine

open Outcome

variable {Score : Type} {cfg : EngineConfig Score} {e e' : Engine} {order : IterOrder} {w : Write}

/-! ### What the directory records -/

/-- The directory's records replay to a content. -/
structure Recorded (cfg : EngineConfig Score) (disk? : Option Disk) (base log : List Record) (tail : Bytes)
    (content : Bytes → Option Entry) : Prop where
  onDisk : ∃ disk, disk? = some disk ∧ OnDisk disk base log tail
  acceptable : ∀ r ∈ base ++ log, Acceptable cfg.dim r.op
  content_eq : replayContent cfg.dim ((base ++ log).map Record.op) (fun _ => none) = content

section Recorded

variable {disk? : Option Disk} {base log : List Record} {tail : Bytes} {content : Bytes → Option Entry}

theorem recorded_empty (cfg : EngineConfig Score) : Recorded cfg (some {}) [] [] [] fun _ => none where
  onDisk := ⟨{}, rfl, rfl, .inr ⟨Finmap.lookup_empty _, rfl⟩, fun _ hr => absurd hr List.not_mem_nil⟩
  acceptable _ hr := absurd hr List.not_mem_nil
  content_eq := rfl

theorem Recorded.append (h : Recorded cfg disk? base log [] content) {r : Record} (hr : r.Readable)
    (hop : Acceptable cfg.dim r.op) :
    Recorded cfg (disk?.map fun disk => { disk with wal := FileLogStore.append disk.wal r.bytes }) base (log ++ [r]) []
      (KeyedLog.write content (r.op.write cfg.dim)) := by
  obtain ⟨disk, rfl, hdisk⟩ := h.onDisk
  refine ⟨⟨_, rfl, ?_, hdisk.blob, fun r' hr' => ?_⟩, fun r' hr' => ?_, ?_⟩
  · show disk.wal ++ FileLogStore.frame r.bytes = _
    rw [hdisk.wal_eq]
    simp
  · rw [← List.append_assoc, List.mem_append, List.mem_singleton] at hr'
    exact hr'.elim (hdisk.readable r') fun heq => heq ▸ hr
  · rw [← List.append_assoc, List.mem_append, List.mem_singleton] at hr'
    exact hr'.elim (h.acceptable r') fun heq => heq ▸ hop
  · rw [← List.append_assoc, List.map_append, replayContent_append, h.content_eq]
    rfl

variable [LinearOrder Score]

theorem Recorded.recovers (h : Recorded cfg disk? base log tail content)
    (htail : FileLogStore.next tail = none)
    (hdim : cfg.dim ≠ 0) :
    Yields (create cfg disk?) fun e => e.Wf cfg ∧ e.store.Wf ∧ e.disk = disk? ∧
      e.store.content = content := by
  obtain ⟨disk, rfl, hdisk⟩ := h.onDisk
  refine (hdisk.recovers htail hdim h.acceptable).mono fun e he => ⟨he.wf, he.store, he.disk_eq, ?_⟩
  rw [he.content_eq, content_fresh]
  exact h.content_eq

end Recorded

/-! ### Snapshots -/

/-- The records of a snapshot. -/
def snapshotRecs (s : VectorStore) (order : IterOrder) : List Record :=
  (liveSlots s).map fun id => ⟨order, snapshotOp s id⟩

theorem snapshotData_eq (s : VectorStore) (order : IterOrder) :
    snapshotData s order = ((snapshotRecs s order).map Record.bytes).flatMap snapshotFrame := by
  rw [snapshotData, snapshotRecs, List.map_map, List.flatMap_map]
  rfl

theorem snapshotRecs_op (s : VectorStore) (order : IterOrder) :
    (snapshotRecs s order).map Record.op = (liveSlots s).map (snapshotOp s) := by
  rw [snapshotRecs, List.map_map]
  rfl

section Snapshot

variable (h : Sane cfg e) (order : IterOrder)

include h

theorem Sane.snapshotRecs_readable : ∀ r ∈ snapshotRecs e.store order, r.Readable := by
  intro r hr
  obtain ⟨id, hid, rfl⟩ := List.mem_map.mp hr
  have hlive := (mem_liveSlots h.wf.ids).mp hid
  have hlt := h.wf.ids.lt_of_isLive hlive
  refine ⟨?_, fun hdelete => OpType.noConfusion hdelete⟩
  have hsmall := h.small _ _ (VectorStore.content_of_resolve (resolve_externalId h.wf.ids hlive))
  rw [smallEntry_iff order] at hsmall
  show (encodeOp order (snapshotOp e.store id)).length < 2 ^ 32
  rw [length_encodeOp, if_neg fun htype => OpType.noConfusion htype, snapshotOp, metadata_eq h.wf.ids hlt]
  exact hsmall

theorem Sane.snapshotRecs_acceptable : ∀ r ∈ snapshotRecs e.store order, Acceptable cfg.dim r.op := by
  intro r hr
  apply snapshotOps_acceptable h.wf
  rw [← snapshotRecs_op e.store order]
  exact List.mem_map_of_mem hr

theorem Sane.replayContent_snapshotRecs :
    replayContent cfg.dim ((snapshotRecs e.store order).map Record.op) (fun _ => none) = e.store.content := by
  rw [snapshotRecs_op, replayContent, List.map_map, ← h.wf.dim_eq]
  exact replay_snapshotOps h.wf.ids

theorem Sane.recorded_putSnapshot {base log : List Record} {tail : Bytes}
    (hrecorded : Recorded cfg e.disk base log tail e.store.content) :
    Recorded cfg (e.putSnapshot order).disk (snapshotRecs e.store order) log tail e.store.content := by
  obtain ⟨disk, hdisk, hon⟩ := hrecorded.onDisk
  refine ⟨⟨{ disk with blobs := disk.blobs.put kSnapshotKey (snapshotData e.store order) },
    by rw [putSnapshot, hdisk]; rfl, hon.wal_eq, .inl ?_, fun r hr => ?_⟩, fun r hr => ?_, ?_⟩
  · exact (FileBlobStore.lookup_put _ _ _).trans (congrArg some (snapshotData_eq e.store order))
  · cases List.mem_append.mp hr with
    | inl hbase => exact h.snapshotRecs_readable order r hbase
    | inr hlog => exact hon.readable r (List.mem_append_right _ hlog)
  · cases List.mem_append.mp hr with
    | inl hbase => exact h.snapshotRecs_acceptable order r hbase
    | inr hlog => exact hrecorded.acceptable r (List.mem_append_right _ hlog)
  · -- the log is replayed over a content that it led to
    have hcontent := hrecorded.content_eq
    rw [List.map_append, replayContent_append] at hcontent ⊢
    rw [h.replayContent_snapshotRecs order, ← hcontent, replayContent_replayContent]

/-- A completed snapshot needs nothing from the log. -/
theorem Sane.recorded_snapshot {disk : Disk} (hdisk : e.disk = some disk) :
    Recorded cfg (e.snapshot order).disk (snapshotRecs e.store order) [] [] e.store.content := by
  refine ⟨⟨⟨[], disk.blobs.put kSnapshotKey (snapshotData e.store order)⟩,
    by rw [snapshot, truncateWal, putSnapshot, hdisk]; rfl, rfl, .inl ?_, fun r hr => ?_⟩, fun r hr => ?_, ?_⟩
  · exact (FileBlobStore.lookup_put _ _ _).trans (congrArg some (snapshotData_eq e.store order))
  · rw [List.append_nil] at hr
    exact h.snapshotRecs_readable order r hr
  · rw [List.append_nil] at hr
    exact h.snapshotRecs_acceptable order r hr
  · rw [List.append_nil]
    exact h.replayContent_snapshotRecs order

end Snapshot

/-! ### The invariant of a run -/

/-- What is on disk leads to what is in memory. -/
structure Durable (cfg : EngineConfig Score) (e : Engine) : Prop extends Sane cfg e where
  recorded : ∃ base log, Recorded cfg e.disk base log [] e.store.content

theorem Sane.congr (h : Sane cfg e) (hwf : e'.Wf cfg) (hstore : e'.store.Wf)
    (hcontent : e'.store.content = e.store.content) : Sane cfg e' :=
  ⟨hwf, hstore, fun x entry hx => h.small x entry (hcontent ▸ hx)⟩

theorem durable_fresh (hdim : cfg.dim ≠ 0) : Durable cfg (fresh cfg {}) where
  wf := wf_initial hdim _
  store := VectorStore.wf_empty cfg.dim
  small x entry hx := by
    rw [content_fresh] at hx
    cases hx
  recorded := ⟨[], [], by rw [content_fresh]; exact recorded_empty cfg⟩

theorem Sane.durable_snapshot (h : Sane cfg e) {disk : Disk} (hdisk : e.disk = some disk)
    (order : IterOrder) :
    Durable cfg (e.snapshot order) :=
  ⟨⟨h.wf.snapshot order, h.store, h.small⟩, _, _, h.recorded_snapshot order hdisk⟩

theorem Durable.written {r : Except Error Unit} (h : Durable cfg e)
    (hok : ¬ e.store.Rejects w.op) (hsmall : SmallRecord e order (.call (.write w)))
    (hwritten : Written cfg e order w r e') : Durable cfg e' := by
  have hsane := h.toSane.written hsmall hwritten
  obtain ⟨base, log, hrecorded⟩ := h.recorded
  obtain ⟨-, hcontent⟩ := hwritten.content_eq h.wf h.store fun hid => length_vec_lt (hsmall hid)
  by_cases hid : Logged e w
  · obtain ⟨r', hmut⟩ := hwritten.mutated hid
    have happend := hrecorded.append (r := ⟨order, w.op⟩) ⟨hsmall hid, op_delete⟩
      (acceptable_of_not_rejects h.wf hid (hsmall hid) hok)
    refine ⟨hsane, base, log ++ [⟨order, w.op⟩], ?_⟩
    rw [hmut.applied.2, hcontent]
    exact happend
  · rwa [hwritten.eq_of_not_logged hid]

/-- A step of a run within the format's limits. -/
def Valid (cfg : EngineConfig Score) (e : Engine) (order : IterOrder) (next : Step) : Prop :=
  FitsDim cfg next ∧ SmallRecord e order next

variable [LinearOrder Score]

theorem Sane.restart_yields (h : Sane cfg e) {disk? : Option Disk} {base log : List Record}
    (hrecorded : Recorded cfg disk? base log [] e.store.content) :
    Yields (create cfg disk?) fun e' => Durable cfg e' ∧ e'.store.content = e.store.content := by
  refine (hrecorded.recovers FileLogStore.next_nil h.wf.dim_ne).mono fun e' he' => ?_
  obtain ⟨hwf, hstore, hdisk, hcontent⟩ := he'
  exact ⟨⟨h.congr hwf hstore hcontent, base, log, by rw [hdisk, hcontent]; exact hrecorded⟩, hcontent⟩

/-- One step: it goes through, keeps the invariant, and unless it is a call on an entry keeps the content. -/
theorem Durable.step_yields (h : Durable cfg e) (order : IterOrder) (next : Step) (hok : Accepted e next)
    (hsmall : SmallRecord e order next) :
    Yields (e.step cfg order next) fun e' =>
      Durable cfg e' ∧ ((∀ w, next ≠ .call (.write w)) → e'.store.content = e.store.content) := by
  obtain ⟨base, log, hrecorded⟩ := h.recorded
  obtain ⟨disk, hdisk, -⟩ := hrecorded.onDisk
  obtain ⟨c, hrebuild, hwf, hstore, hsame, hcontent, -⟩ := h.wf.rebuild_eq
  have hsane : Sane cfg c := h.toSane.congr hwf hstore hcontent
  cases next with
  | call m =>
      cases m with
      | write w => exact .ok ⟨h.written hok hsmall (h.wf.write order w), fun hno => absurd rfl (hno w)⟩
      | compact =>
          rw [step, Mutation.exec, compact, hrebuild]
          exact .ok ⟨hsane.durable_snapshot (hsame.trans hdisk) order, fun _ => hcontent⟩
  | flush => exact .ok ⟨h, fun _ => rfl⟩
  | snapshot => exact .ok ⟨h.toSane.durable_snapshot hdisk order, fun _ => rfl⟩
  | reopen => exact (h.toSane.restart_yields hrecorded).mono fun e' he' => ⟨he'.1, fun _ => he'.2⟩
  | cutSnapshot =>
      have hput := h.toSane.recorded_putSnapshot order hrecorded
      exact (h.toSane.restart_yields hput).mono fun e' he' => ⟨he'.1, fun _ => he'.2⟩
  | cutCompact =>
      have hput := hsane.recorded_putSnapshot order (by rw [hsame, hcontent]; exact hrecorded)
      rw [step, hrebuild]
      exact (hsane.restart_yields hput).mono fun e' he' => ⟨he'.1, fun _ => he'.2.trans hcontent⟩

theorem Durable.steps_yields (h : Durable cfg e) (run : List (IterOrder × Step))
    (hvalid : Always cfg (Valid cfg) e run) :
    Yields (e.steps cfg run) (Durable cfg) := by
  refine Always.yields (fun e order next hdurable hnext => ?_) run hvalid h
  exact (hdurable.step_yields order next (accepted_of_fitsDim hdurable.wf hnext.1) hnext.2).mono
    fun e' he' => he'.1

/-- **Recovery preserves the database.** Start on an empty directory and take any run of calls with
vectors of the right length and records below 2^32 bytes, of flushes, snapshots, compactions and
restarts, clean or out of a snapshot or compaction that was cut before it truncated the log. The run
goes through, and from where it ends every such restart goes through and finds the same content and
the same size. -/
theorem recovery_preserves_content (cfg : EngineConfig Score) (e₀ : Engine)
    (hcreate : create cfg (some {}) = .ok e₀)
    (run : List (IterOrder × Step)) (hvalid : Always cfg (Valid cfg) e₀ run) :
    ∃ e, e₀.steps cfg run = .ok e ∧
      ∀ order, ∀ restart ∈ [Step.reopen, Step.cutSnapshot, Step.cutCompact],
        ∃ e', e.step cfg order restart = .ok e' ∧ e'.store.content = e.store.content ∧
          e'.store.size = e.store.size := by
  have hblank : (some ({} : Disk)).getD {} = {} := rfl
  obtain ⟨hdim, rfl⟩ := create_blank hblank hcreate
  obtain ⟨e, hsteps, hdurable⟩ := (durable_fresh hdim).steps_yields run hvalid
  refine ⟨e, hsteps, fun order restart hrestart => ?_⟩
  have hno : ∀ w, restart ≠ .call (.write w) := by
    rintro w rfl
    simp at hrestart
  have hlimits : Accepted e restart ∧ SmallRecord e order restart := by
    simp only [List.mem_cons, List.not_mem_nil, or_false] at hrestart
    rcases hrestart with rfl | rfl | rfl <;> exact ⟨trivial, trivial⟩
  obtain ⟨e', hstep, hdurable', hcontent⟩ := hdurable.step_yields order restart hlimits.1 hlimits.2
  exact ⟨e', hstep, hcontent hno, size_congr hdurable.wf.ids hdurable'.wf.ids (hcontent hno)⟩

/-- Insert, snapshot without truncating, restart, update without metadata, erase another. -/
def sampleSteps : List (IterOrder × Step) :=
  [.call (.write (.insert (ascii "a") [0] ∅)), .cutSnapshot,
    .call (.write (.update (ascii "a") [0x40400000] none)),
    .call (.write (.erase (ascii "b")))].map fun next => (IterOrder.byKey, next)

theorem recovery_preserves_content_sample :
    ∃ e, (fresh (sampleConfig .flat ⟨1, 1, 64, fun _ => 0⟩) {}).steps
      (sampleConfig .flat ⟨1, 1, 64, fun _ => 0⟩) sampleSteps =
        .ok e ∧
      ∃ e', create (sampleConfig .flat ⟨1, 1, 64, fun _ => 0⟩) e.disk = .ok e' ∧
        e'.store.content (ascii "a") = some ⟨[0x40400000], ∅⟩ ∧ e'.store.content (ascii "b") = none := by
  obtain ⟨e, hsteps, hrestart⟩ :=
    recovery_preserves_content (sampleConfig .flat ⟨1, 1, 64, fun _ => 0⟩) (fresh _ {}) rfl sampleSteps
    ⟨⟨fun _ => rfl, fun _ => by decide +kernel⟩,
    fun _ _ => ⟨⟨trivial, trivial⟩, fun _ _ => ⟨⟨fun _ => rfl, fun _ => by decide +kernel⟩,
      fun _ _ => ⟨⟨fun hop => absurd rfl hop, fun _ => by decide +kernel⟩, fun _ _ => trivial⟩⟩⟩⟩
  obtain ⟨e', hreopen, hcontent, -⟩ := hrestart .byKey .reopen (by simp)
  have hstored : ((fresh (sampleConfig .flat ⟨1, 1, 64, fun _ => 0⟩) {}).steps
      (sampleConfig .flat ⟨1, 1, 64, fun _ => 0⟩) sampleSteps).map
        (fun e => (e.store.content (ascii "a"), e.store.content (ascii "b"))) =
      .ok (some ⟨[0x40400000], ∅⟩, none) := by decide +kernel
  rw [hsteps] at hstored
  obtain ⟨ha, hb⟩ := Prod.mk.inj (Except.ok.inj hstored)
  exact ⟨e, hsteps, e', hreopen, hcontent ▸ ha, hcontent ▸ hb⟩

end Engine

end ToyVdb
