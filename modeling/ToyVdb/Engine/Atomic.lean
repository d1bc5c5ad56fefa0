import ToyVdb.Engine.Recovery

/-!
# Failing calls

A call whose vector has the wrong length throws and changes nothing in memory; but its op is in the
log by then, where the next recovery meets it and throws as well. So on disk a failing call is never
atomic, and the directory stays unreadable until a snapshot replaces the log.

All that can be wrong with a vector here is its length. Scores are linearly ordered, which leaves
undefined distances out.
-/

namespace ToyVdb

namespace Engine

open Outcome

variable {Score : Type} {cfg : EngineConfig Score} {e e' : Engine} {order : IterOrder} {w : Write} {op : Op}

theorem Written.eq_logOp {r : Except Error Unit} (h : Written cfg e order w r e')
    (hrejects : e.store.Rejects w.op) :
    e' = e.logOp order w.op := by
  cases h with
  | skipped hop hid => exact absurd hid ((logged_of_rejects hrejects).resolve_left hop)
  | done _ hmut =>
      obtain ⟨err, herr⟩ := hmut.rejects_iff.mp hrejects
      cases herr
  | thrown _ hmut =>
      cases hmut with
      | rejected => rfl

theorem Written.disk_isSome {r : Except Error Unit} (h : Written cfg e order w r e') (hdisk : e.disk.isSome) :
    e'.disk.isSome := by
  by_cases hid : Logged e w
  · obtain ⟨r', hmut⟩ := h.mutated hid
    rw [hmut.applied.2]
    simp [logOp, hdisk]
  · rwa [h.eq_of_not_logged hid]

theorem isSome_putSnapshot (hdisk : e.disk.isSome) (order : IterOrder) :
    (e.putSnapshot order).disk.isSome := by
  simp [putSnapshot, hdisk]

theorem isSome_snapshot (hdisk : e.disk.isSome) (order : IterOrder) : (e.snapshot order).disk.isSome := by
  simp [snapshot, truncateWal, putSnapshot, hdisk]

theorem logOp_ne (hdisk : e.disk.isSome) (order : IterOrder) (op : Op) : e.logOp order op ≠ e := by
  obtain ⟨disk, hdisk⟩ := Option.isSome_iff_exists.mp hdisk
  intro heq
  have hwal := congrArg (fun e : Engine => (e.disk.map fun disk => disk.wal.length)) heq
  simp only [logOp, hdisk, Option.map_some, FileLogStore.append, List.length_append,
    FileLogStore.length_frame,
    Option.some.injEq] at hwal
  omega

/-! ### Poisoned logs -/

/-- The log has a record that recovery will reject. -/
structure Poisoned (cfg : EngineConfig Score) (e : Engine) : Prop extends Sane cfg e where
  poison : ∃ (base log : List Record) (bad : Record) (tail : Bytes) (s : VectorStore),
    Recorded cfg e.disk base log (FileLogStore.frame bad.bytes ++ tail) s.content ∧ bad.Readable ∧
      s.dim = cfg.dim ∧
      s.Rejects bad.op

/-- The invariant of a run with failing calls. -/
def TaintInv (cfg : EngineConfig Score) (e : Engine) (tainted : Bool) : Prop :=
  if tainted then Poisoned cfg e else Durable cfg e

theorem Recorded.appendTail {disk? : Option Disk} {base log : List Record} {tail : Bytes}
    {content : Bytes → Option Entry} (h : Recorded cfg disk? base log tail content) (record : Bytes) :
    Recorded cfg (disk?.map fun disk => { disk with wal := FileLogStore.append disk.wal record }) base log
      (tail ++ FileLogStore.frame record) content := by
  obtain ⟨disk, rfl, hdisk⟩ := h.onDisk
  refine ⟨⟨_, rfl, ?_, hdisk.blob, hdisk.readable⟩, h.acceptable, h.content_eq⟩
  show disk.wal ++ FileLogStore.frame record = _
  rw [hdisk.wal_eq, List.append_assoc]

theorem Durable.poisoned (h : Durable cfg e) (hsmall : SmallRecord e order (.call (.write w)))
    (hrejects : e.store.Rejects w.op) : Poisoned cfg (e.logOp order w.op) := by
  obtain ⟨base, log, hrecorded⟩ := h.recorded
  refine ⟨⟨h.wf.logOp order w.op, h.store, h.small⟩, base, log, ⟨order, w.op⟩, [], e.store, ?_,
    ⟨hsmall (logged_of_rejects hrejects), op_delete⟩, h.wf.dim_eq, hrejects⟩
  have happend := hrecorded.appendTail (encodeOp order w.op)
  rwa [List.nil_append, ← List.append_nil (FileLogStore.frame _)] at happend

theorem Poisoned.written {r : Except Error Unit} (h : Poisoned cfg e)
    (hsmall : SmallRecord e order (.call (.write w)))
    (hwritten : Written cfg e order w r e') : Poisoned cfg e' := by
  have hsane := h.toSane.written hsmall hwritten
  obtain ⟨base, log, bad, tail, s, hrecorded, hbad⟩ := h.poison
  have happend := hrecorded.appendTail (encodeOp order w.op)
  rw [List.append_assoc] at happend
  by_cases hid : Logged e w
  · obtain ⟨r', hmut⟩ := hwritten.mutated hid
    refine ⟨hsane, base, log, bad, tail ++ FileLogStore.frame (encodeOp order w.op), s, ?_, hbad⟩
    rw [hmut.applied.2]
    exact happend
  · rwa [hwritten.eq_of_not_logged hid]

variable [LinearOrder Score]

theorem Wf.replayOp_error (hwf : e.Wf cfg) (hrejects : e.store.Rejects op) :
    ∃ err, e.replayOp cfg op = .error err := by
  obtain ⟨err, herr⟩ := (hwf.mutate op).rejects_iff.mp hrejects
  refine ⟨err, ?_⟩
  rw [replayOp_eq]
  cases hcall : e.mutate cfg op with
  | mk r e' =>
  rw [hcall] at herr
  cases herr
  rfl

theorem Poisoned.create_error (h : Poisoned cfg e) : ∃ err, create cfg e.disk = .error err := by
  obtain ⟨base, log, bad, tail, s, hrecorded, hbad, hdim, hrejects⟩ := h.poison
  obtain ⟨disk, hdisk, hon⟩ := hrecorded.onDisk
  have hon' : OnDisk disk base (log ++ [bad]) tail := by
    refine ⟨?_, hon.blob, fun r hr => ?_⟩
    · rw [hon.wal_eq]
      simp
    · rw [← List.append_assoc, List.mem_append, List.mem_singleton] at hr
      exact hr.elim (hon.readable r) fun heq => heq ▸ hbad
  obtain ⟨more, -, hcreate⟩ := hon'.create_eq h.wf.dim_ne
  -- up to the bad record the replay goes through, to a store that rejects it
  obtain ⟨e₁, hreplay, hreplayed⟩ := replayFresh_yields disk h.wf.dim_ne _ hrecorded.acceptable
  have hcontent : e₁.store.content = s.content := by
    rw [hreplayed.content_eq, content_fresh]
    exact hrecorded.content_eq
  obtain ⟨err, herr⟩ := hreplayed.wf.replayOp_error
    (hrejects.congr hcontent (hreplayed.wf.dim_eq.trans hdim.symm))
  refine ⟨err, ?_⟩
  rw [hdisk, hcreate, ← List.append_assoc, List.map_append, List.foldlM_append, hreplay]
  show (replayOp cfg e₁ bad.op >>= fun e => [].foldlM (replayOp cfg) e) >>= _ = _
  rw [herr]
  rfl

/-! ### Runs with failing calls -/

section Runs

/-- Whether a rejected call is in the log after a step: a completed snapshot or compaction drops the log. -/
def taints (e : Engine) (tainted : Bool) : Step → Bool
  | .call (.write w) => tainted || decide (e.store.Rejects w.op)
  | .call .compact => false
  | .snapshot => false
  | _ => tainted

/-- Whether a run has a rejected call since its last completed snapshot or compaction. -/
def taintedBy (cfg : EngineConfig Score) : Engine → Bool → List (IterOrder × Step) → Bool
  | _, tainted, [] => tainted
  | e, tainted, next :: run =>
    match e.step cfg next.1 next.2 with
    | .ok e' => taintedBy cfg e' (e.taints tainted next.2) run
    | .error _ => tainted

/-- A step within the format's limits that is not cut. -/
def Uncut (e : Engine) (order : IterOrder) (next : Step) : Prop :=
  SmallRecord e order next ∧ next ≠ .cutSnapshot ∧ next ≠ .cutCompact

/-- From an intact log: a rejected call poisons it, anything else leaves it intact. -/
theorem Durable.step_taint (h : Durable cfg e) {next : Step} (huncut : Uncut e order next)
    (hstep : e.step cfg order next = .ok e') : TaintInv cfg e' (e.taints false next) := by
  by_cases hok : Accepted e next
  · obtain ⟨e'', hstep', hdurable, -⟩ := h.step_yields order next hok huncut.1
    cases hstep.symm.trans hstep'
    have hclean : e.taints false next = false := by
      rcases next with (w | _) | _ | _ | _ | _ | _
      · exact (Bool.false_or _).trans (decide_eq_false hok)
      all_goals rfl
    rw [hclean]
    exact hdurable
  · rcases next with (w | _) | _ | _ | _ | _ | _
    · have hrejects : e.store.Rejects w.op := not_not.mp hok
      have htaint : e.taints false (.call (.write w)) = true :=
        (Bool.false_or _).trans (decide_eq_true hrejects)
      cases hstep
      rw [htaint]
      show Poisoned cfg (w.exec cfg order e).2
      rw [(h.wf.write order w).eq_logOp hrejects]
      exact h.poisoned huncut.1 hrejects
    all_goals exact absurd trivial hok

/-- From a poisoned log: only a completed snapshot or compaction helps, and a restart fails. -/
theorem Poisoned.step_taint (h : Poisoned cfg e) {next : Step} (huncut : Uncut e order next)
    (hstep : e.step cfg order next = .ok e') : TaintInv cfg e' (e.taints true next) := by
  obtain ⟨base, log, bad, tail, s, hrecorded, -⟩ := h.poison
  obtain ⟨disk, hdisk, -⟩ := hrecorded.onDisk
  cases next with
  | call m =>
      cases m with
      | write w =>
          cases hstep
          exact h.written huncut.1 (h.wf.write order w)
      | compact =>
          obtain ⟨c, hrebuild, hwf, hstore, hsame, hcontent, -⟩ := h.wf.rebuild_eq
          rw [step, Mutation.exec, compact, hrebuild] at hstep
          cases hstep
          exact (h.toSane.congr hwf hstore hcontent).durable_snapshot (hsame.trans hdisk) order
  | flush =>
      cases hstep
      exact h
  | snapshot =>
      cases hstep
      exact h.toSane.durable_snapshot hdisk order
  | reopen =>
      obtain ⟨err, herr⟩ := h.create_error
      rw [step, herr] at hstep
      cases hstep
  | cutSnapshot => exact absurd rfl huncut.2.1
  | cutCompact => exact absurd rfl huncut.2.2

theorem TaintInv.steps {tainted : Bool} (h : TaintInv cfg e tainted) (run : List (IterOrder × Step))
    (huncut : Always cfg Uncut e run) (hsteps : e.steps cfg run = .ok e') :
    TaintInv cfg e' (taintedBy cfg e tainted run) := by
  induction run generalizing e tainted with
  | nil =>
      cases hsteps
      exact h
  | cons next run ih =>
      rw [Engine.steps, List.foldlM_cons] at hsteps
      obtain ⟨e₁, hstep, hrest⟩ := exists_of_bind_eq_ok hsteps
      have hinv : TaintInv cfg e₁ (e.taints tainted next.2) := by
        cases tainted with
        | false => exact Durable.step_taint h huncut.1 hstep
        | true => exact Poisoned.step_taint h huncut.1 hstep
      rw [taintedBy, hstep]
      exact ih hinv (huncut.2 e₁ hstep) hrest

/-- The directory opens with the content in memory if and only if its log is intact. -/
theorem TaintInv.recovers_iff {tainted : Bool} (h : TaintInv cfg e tainted) :
    (∃ e', create cfg e.disk = .ok e' ∧ e'.store.content = e.store.content ∧ e'.store.size = e.store.size) ↔
      tainted = false := by
  cases tainted with
  | false =>
      have hdurable : Durable cfg e := h
      obtain ⟨base, log, hrecorded⟩ := hdurable.recorded
      obtain ⟨e', hopen, hdurable', hcontent⟩ := hdurable.toSane.restart_yields hrecorded
      exact ⟨fun _ => rfl, fun _ => ⟨e', hopen, hcontent,
        size_congr hdurable.wf.ids hdurable'.wf.ids hcontent⟩⟩
  | true =>
      have hpoisoned : Poisoned cfg e := h
      obtain ⟨err, herr⟩ := hpoisoned.create_error
      constructor
      · rintro ⟨e', hopen, -⟩
        rw [herr] at hopen
        cases hopen
      · exact fun hfalse => Bool.noConfusion hfalse

theorem Wf.step (hwf : e.Wf cfg) (hdisk : e.disk.isSome) {next : Step}
    (hstep : e.step cfg order next = .ok e') :
    e'.Wf cfg ∧ e'.disk.isSome := by
  have hcreate : ∀ disk?, disk?.isSome → create cfg disk? = .ok e' → e'.Wf cfg ∧ e'.disk.isSome :=
    fun disk? hsome hopen =>
    ⟨wf_of_create hopen, disk_of_create hopen ▸ hsome⟩
  obtain ⟨c, hrebuild, hwf', -, hsame, -⟩ := hwf.rebuild_eq
  cases next with
  | call m =>
      cases m with
      | write w =>
          cases hstep
          refine ⟨hwf.exec order (.write w), ?_⟩
          exact (hwf.write order w).disk_isSome hdisk
      | compact =>
          rw [Engine.step, Mutation.exec, Engine.compact, hrebuild] at hstep
          cases hstep
          exact ⟨hwf'.snapshot order, isSome_snapshot (hsame ▸ hdisk) order⟩
  | flush =>
      cases hstep
      exact ⟨hwf, hdisk⟩
  | snapshot =>
      cases hstep
      exact ⟨hwf.snapshot order, isSome_snapshot hdisk order⟩
  | reopen => exact hcreate _ hdisk hstep
  | cutSnapshot => exact hcreate _ (isSome_putSnapshot hdisk order) hstep
  | cutCompact =>
      rw [Engine.step, hrebuild] at hstep
      exact hcreate _ (isSome_putSnapshot (hsame ▸ hdisk) order) hstep

theorem Wf.steps (hwf : e.Wf cfg) (hdisk : e.disk.isSome) (run : List (IterOrder × Step))
    (hsteps : e.steps cfg run = .ok e') : e'.Wf cfg ∧ e'.disk.isSome := by
  have hinv : ∀ (e : Engine) (next : IterOrder × Step) (e' : Engine), (e.Wf cfg ∧ e.disk.isSome) →
    e.step cfg next.1 next.2 = .ok e' →
      e'.Wf cfg ∧ e'.disk.isSome := fun e next e' hinv hstep => hinv.1.step hinv.2 hstep
  exact invariant_foldlM hinv run e e' ⟨hwf, hdisk⟩ hsteps

/-- **When failing calls are atomic.** In every state a durable engine reaches from an empty
directory, a call that throws leaves store and index alone; it leaves everything alone, the log
included, if and only if it does not throw, that is unless it supplies a vector of the wrong length
to an insert or to an update of a live id. And after a run of calls that may fail, barriers,
completed snapshots and compactions and restarts, with records below 2^32 bytes, the directory opens
again with the content in memory if and only if there was no such call since the last snapshot or
compaction. -/
theorem failed_call_atomicity (cfg : EngineConfig Score) (e₀ : Engine)
    (hcreate : create cfg (some {}) = .ok e₀)
    (run : List (IterOrder × Step)) (e : Engine) (hsteps : e₀.steps cfg run = .ok e) :
    (∀ order w err, (Write.exec cfg order e w).1 = .error err →
      (Write.exec cfg order e w).2.store = e.store ∧ (Write.exec cfg order e w).2.index = e.index) ∧
    (∀ order w, (∀ err, (Write.exec cfg order e w).1 = .error err → (Write.exec cfg order e w).2 = e) ↔
      ¬ e.store.Rejects w.op) ∧
    (Always cfg Uncut e₀ run →
      ((∃ e', create cfg e.disk = .ok e' ∧ e'.store.content = e.store.content ∧
        e'.store.size = e.store.size) ↔
        taintedBy cfg e₀ false run = false)) := by
  have hblank : (some ({} : Disk)).getD {} = {} := rfl
  obtain ⟨hdim, rfl⟩ := create_blank hblank hcreate
  obtain ⟨hwf, hdisk⟩ := (wf_of_create hcreate).steps rfl run hsteps
  refine ⟨fun order w err herr => ?_, fun order w => ?_, fun huncut => ?_⟩
  · have hwritten := hwf.write order w
    rw [hwritten.eq_logOp (hwritten.rejects_iff.mpr ⟨err, herr⟩)]
    exact ⟨rfl, rfl⟩
  · have hwritten := hwf.write order w
    constructor
    · intro hatomic hrejects
      obtain ⟨err, herr⟩ := hwritten.rejects_iff.mp hrejects
      have heq := hwritten.eq_logOp hrejects
      rw [hatomic err herr] at heq
      exact logOp_ne hdisk order w.op heq.symm
    · exact fun hok err herr => absurd (hwritten.rejects_iff.mpr ⟨err, herr⟩) hok
  · have hinv : TaintInv cfg e (taintedBy cfg (fresh cfg {}) false run) :=
      TaintInv.steps (show TaintInv cfg (fresh cfg {}) false from durable_fresh hdim) run huncut hsteps
    exact hinv.recovers_iff

/-- A failed insert, a snapshot, another insert. -/
def healedSteps : List (IterOrder × Step) :=
  [.call (.write (.insert (ascii "a") [] ∅)), .snapshot, .call (.write (.insert (ascii "b") [0] ∅))].map
    fun next => (IterOrder.byKey, next)

theorem failed_call_atomicity_sample :
    ∃ e, (fresh (sampleConfig .flat ⟨1, 1, 64, fun _ => 0⟩) {}).steps
      (sampleConfig .flat ⟨1, 1, 64, fun _ => 0⟩) healedSteps =
        .ok e ∧
      ∃ e', create (sampleConfig .flat ⟨1, 1, 64, fun _ => 0⟩) e.disk = .ok e' ∧
        e'.store.content (ascii "a") = none ∧ e'.store.content (ascii "b") = some ⟨[0], ∅⟩ := by
  obtain ⟨e, hsteps⟩ : ∃ e, (fresh (sampleConfig .flat ⟨1, 1, 64, fun _ => 0⟩) {}).steps
      (sampleConfig .flat ⟨1, 1, 64, fun _ => 0⟩) healedSteps = .ok e := ⟨_, rfl⟩
  obtain ⟨-, -, hrecovers⟩ := failed_call_atomicity
    (sampleConfig .flat ⟨1, 1, 64, fun _ => 0⟩) _ rfl healedSteps e hsteps
  have huncut : Always (sampleConfig .flat ⟨1, 1, 64, fun _ => 0⟩) Uncut
      (fresh (sampleConfig .flat ⟨1, 1, 64, fun _ => 0⟩) {}) healedSteps :=
    ⟨⟨fun _ => by decide +kernel, nofun, nofun⟩, fun _ _ => ⟨⟨trivial, nofun, nofun⟩,
      fun _ _ => ⟨⟨fun _ => by decide +kernel, nofun, nofun⟩, fun _ _ => trivial⟩⟩⟩
  obtain ⟨e', hopen, hcontent, -⟩ := (hrecovers huncut).mpr (by decide +kernel)
  have hstored : ((fresh (sampleConfig .flat ⟨1, 1, 64, fun _ => 0⟩) {}).steps
      (sampleConfig .flat ⟨1, 1, 64, fun _ => 0⟩) healedSteps).map
        (fun e => (e.store.content (ascii "a"), e.store.content (ascii "b"))) =
      .ok (none, some ⟨[0], ∅⟩) := by decide +kernel
  rw [hsteps] at hstored
  obtain ⟨ha, hb⟩ := Prod.mk.inj (Except.ok.inj hstored)
  exact ⟨e, hsteps, e', hopen, hcontent ▸ ha, hcontent ▸ hb⟩

/-- A failed insert is in the log, and the directory does not open any more. -/
theorem failed_call_is_logged :
    (Write.exec (sampleConfig .flat ⟨1, 1, 64, fun _ => 0⟩) .byKey
      (fresh (sampleConfig .flat ⟨1, 1, 64, fun _ => 0⟩) {})
      (.insert (ascii "a") [] ∅)).1 =
        .error (.invalidArgument "VectorStore: vector dimensionality mismatch") ∧
    (Write.exec (sampleConfig .flat ⟨1, 1, 64, fun _ => 0⟩) .byKey
      (fresh (sampleConfig .flat ⟨1, 1, 64, fun _ => 0⟩) {})
      (.insert (ascii "a") [] ∅)).2.disk ≠ some {} ∧
    create (sampleConfig .flat ⟨1, 1, 64, fun _ => 0⟩)
      (Write.exec (sampleConfig .flat ⟨1, 1, 64, fun _ => 0⟩) .byKey
      (fresh (sampleConfig .flat ⟨1, 1, 64, fun _ => 0⟩) {}) (.insert (ascii "a") [] ∅)).2.disk =
        .error (.invalidArgument "VectorStore: vector dimensionality mismatch") := by
  decide +kernel

end Runs

end Engine

end ToyVdb
