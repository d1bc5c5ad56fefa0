import ToyVdb.Engine.Recovery
import ToyVdb.Disk.Faults

/-!
# Torn logs

A crash in the middle of an append leaves a piece of a frame behind the log. Recovery stops there,
so it finds everything that was logged before; but it leaves the piece where it is, and what is
appended afterwards is behind it, out of the next recovery's sight. So the next recovery can be
relied on only if there was no piece, or nothing was appended.

A crash can also leave a file that was extended and not written. Eight zeros are a frame, of a record that is
no op, so recovery throws as soon as there are eight.

Scores are linearly ordered: undefined distances are left out.
-/

namespace ToyVdb

namespace Engine

open Outcome

variable {Score : Type} {cfg : EngineConfig Score} {e e' : Engine}

/-- The directory with something behind the log. -/
def tear (e : Engine) (torn : Bytes) : Option Disk :=
  e.disk.map fun disk => { disk with wal := disk.wal ++ torn }

/-- The steps of a sequence of calls. -/
def callSteps (calls : List (IterOrder × Write)) : List (IterOrder × Step) :=
  calls.map fun call => (call.1, .call (.write call.2))

/-- The call logs nothing. -/
def Quiet (e : Engine) (_ : IterOrder) : Step → Prop
  | .call (.write w) => ¬ Logged e w
  | _ => True

theorem Recorded.tear {base log : List Record} {content : Bytes → Option Entry}
    (h : Recorded cfg e.disk base log [] content) (torn : Bytes) :
    Recorded cfg (e.tear torn) base log torn content := by
  obtain ⟨disk, hdisk, hon⟩ := h.onDisk
  refine ⟨⟨{ disk with wal := disk.wal ++ torn }, by rw [Engine.tear, hdisk]; rfl, ?_, hon.blob,
    hon.readable⟩,
    h.acceptable, h.content_eq⟩
  rw [hon.wal_eq, List.append_nil]

variable [LinearOrder Score]

theorem Sane.calls (h : Sane cfg e) (calls : List (IterOrder × Write))
    (hvalid : Always cfg (Valid cfg) e (callSteps calls)) :
    ∃ e', e.steps cfg (callSteps calls) = .ok e' ∧ Sane cfg e' ∧
      e'.store.content = replayContent cfg.dim (calls.map fun call => call.2.op) e.store.content := by
  induction calls generalizing e with
  | nil => exact ⟨e, rfl, h, rfl⟩
  | cons call calls ih =>
      obtain ⟨⟨-, hsmall⟩, hrest⟩ := hvalid
      have hwritten := h.wf.write call.1 call.2
      obtain ⟨-, hcontent⟩ := hwritten.content_eq h.wf h.store fun hid => length_vec_lt (hsmall hid)
      obtain ⟨e', hsteps, hsane, hcontent'⟩ := ih (h.written hsmall hwritten) (hrest _ rfl)
      refine ⟨e', hsteps, hsane, ?_⟩
      rw [hcontent', hcontent]
      rfl

theorem Sane.quiet_calls (h : Sane cfg e) (calls : List (IterOrder × Write))
    (hquiet : Always cfg Quiet e (callSteps calls)) : e.steps cfg (callSteps calls) = .ok e := by
  induction calls with
  | nil => rfl
  | cons call calls ih =>
      obtain ⟨hcall, hrest⟩ := hquiet
      have hsame := (h.wf.write call.1 call.2).eq_of_not_logged hcall
      have hstep : e.step cfg call.1 (.call (.write call.2)) = .ok e := congrArg Except.ok hsame
      show (e.step cfg call.1 (.call (.write call.2)) >>= fun e => e.steps cfg (callSteps calls)) = .ok e
      rw [hstep]
      exact ih (hrest e hstep)

/-- **When acknowledged ops survive a second recovery.** After any valid run from an empty
directory, let a crash leave an arbitrary proper piece of a frame behind the log. The engine opens
with the content it had. Let it take further calls, and reopen it: if the piece was empty, or no
call logged anything, it opens with the effects of all calls before and after the crash. -/
theorem acknowledged_ops_survive (cfg : EngineConfig Score) (e₀ : Engine)
    (hcreate : create cfg (some {}) = .ok e₀)
    (run : List (IterOrder × Step)) (hvalid : Always cfg (Valid cfg) e₀ run) (record torn : Bytes)
    (hsmall : record.length < 2 ^ 32) (hpiece : torn <+: FileLogStore.frame record)
    (hne : torn ≠ FileLogStore.frame record) :
    ∃ e e₁, e₀.steps cfg run = .ok e ∧ create cfg (e.tear torn) = .ok e₁ ∧
      e₁.store.content = e.store.content ∧
      ∀ calls, Always cfg (Valid cfg) e₁ (callSteps calls) →
        (torn = [] ∨ Always cfg Quiet e₁ (callSteps calls)) →
        ∃ e₂ e₃, e₁.steps cfg (callSteps calls) = .ok e₂ ∧ create cfg e₂.disk = .ok e₃ ∧
          e₃.store.content = e₂.store.content ∧ e₃.store.size = e₂.store.size ∧
          e₃.store.content = replayContent cfg.dim (calls.map fun call => call.2.op) e.store.content := by
  have hblank : (some ({} : Disk)).getD {} = {} := rfl
  obtain ⟨hdim, rfl⟩ := create_blank hblank hcreate
  obtain ⟨e, hsteps, hdurable⟩ := (durable_fresh hdim).steps_yields run hvalid
  obtain ⟨base, log, hrecorded⟩ := hdurable.recorded
  have htorn := FileLogStore.next_torn hsmall hpiece hne
  obtain ⟨e₁, hopen, hwf₁, hstore₁, hdisk₁, hcontent₁⟩ := (hrecorded.tear torn).recovers htorn hdim
  have hsane₁ : Sane cfg e₁ := hdurable.toSane.congr hwf₁ hstore₁ hcontent₁
  refine ⟨e, e₁, hsteps, hopen, hcontent₁, fun calls hcalls hcond => ?_⟩
  obtain ⟨e₂, hsteps₂, hsane₂, hcontent₂⟩ := hsane₁.calls calls hcalls
  rw [hcontent₁] at hcontent₂
  -- in both cases the directory records what is in memory, with nothing readable behind the log
  have hrecorded₂ : ∃ base log tail, Recorded cfg e₂.disk base log tail e₂.store.content ∧
      FileLogStore.next tail = none := by
    cases hcond with
    | inl hempty =>
        have hdurable₁ : Durable cfg e₁ := by
          refine ⟨hsane₁, base, log, ?_⟩
          rw [hdisk₁, hcontent₁]
          exact hempty ▸ hrecorded.tear torn
        obtain ⟨e₂', hsteps₂', hdurable₂⟩ := hdurable₁.steps_yields (callSteps calls) hcalls
        cases hsteps₂.symm.trans hsteps₂'
        obtain ⟨base₂, log₂, hrecorded₂⟩ := hdurable₂.recorded
        exact ⟨base₂, log₂, [], hrecorded₂, FileLogStore.next_nil⟩
    | inr hquiet =>
        cases hsteps₂.symm.trans (hsane₁.quiet_calls calls hquiet)
        refine ⟨base, log, torn, ?_, htorn⟩
        rw [hdisk₁, hcontent₁]
        exact hrecorded.tear torn
  obtain ⟨base₂, log₂, tail, hrecorded₂, htail⟩ := hrecorded₂
  obtain ⟨e₃, hopen₃, hwf₃, -, -, hcontent₃⟩ := hrecorded₂.recovers htail hdim
  exact ⟨e₂, e₃, hsteps₂, hopen₃, hcontent₃, size_congr hsane₂.wf.ids hwf₃.ids hcontent₃,
    hcontent₃.trans hcontent₂⟩

/-- The first byte of a frame. -/
def tornByte : Bytes := (FileLogStore.frame (encodeOp .byKey ⟨.insert, ascii "a", [0], some ∅⟩)).take 1

/-- The insert of one entry is logged before the crash; after it the erase of another one logs nothing. -/
theorem acknowledged_ops_survive_sample :
    ∃ e e₁ e₂ e₃ : Engine,
      (fresh (sampleConfig .flat ⟨1, 1, 64, fun _ => 0⟩) {}).steps (sampleConfig .flat ⟨1, 1, 64, fun _ => 0⟩)
        (callSteps [(.byKey, .insert (ascii "a") [0] ∅)]) = .ok e ∧
      create (sampleConfig .flat ⟨1, 1, 64, fun _ => 0⟩) (e.tear tornByte) = .ok e₁ ∧
      e₁.steps (sampleConfig .flat ⟨1, 1, 64, fun _ => 0⟩) (callSteps [(.byKey, .erase (ascii "b"))]) = .ok e₂ ∧
      create (sampleConfig .flat ⟨1, 1, 64, fun _ => 0⟩) e₂.disk = .ok e₃ ∧
      e₃.store.content (ascii "a") = some ⟨[0], ∅⟩ := by
  obtain ⟨e, e₁, hsteps, hopen, hcontent, hcalls⟩ :=
    acknowledged_ops_survive (sampleConfig .flat ⟨1, 1, 64, fun _ => 0⟩) _ rfl
    (callSteps [(.byKey, .insert (ascii "a") [0] ∅)])
    ⟨⟨fun _ => (rfl : [(0 : UInt32)].length = 1), fun _ => by decide +kernel⟩, fun _ _ => trivial⟩
    (encodeOp .byKey ⟨.insert, ascii "a", [0], some ∅⟩) tornByte (by decide +kernel) (List.take_prefix 1 _)
    (by decide +kernel)
  have hstored : e.store.content (ascii "a") = some ⟨[0], ∅⟩ ∧ e.store.content (ascii "b") = none := by
    cases hsteps
    decide +kernel
  have habsent : e₁.store.resolve (ascii "b") = none := by
    rw [← VectorStore.content_eq_none_iff, hcontent]
    exact hstored.2
  have hquiet : ¬ Logged e₁ (.erase (ascii "b")) :=
    fun hid => hid.elim (fun hop => OpType.noConfusion hop) fun h => h habsent
  obtain ⟨e₂, e₃, hsteps₂, hopen₃, -, -, hreplay⟩ := hcalls [(.byKey, .erase (ascii "b"))]
    ⟨⟨fun hop => absurd rfl hop, fun hid => absurd hid hquiet⟩, fun _ _ => trivial⟩
    (.inr ⟨hquiet, fun _ _ => trivial⟩)
  refine ⟨e, e₁, e₂, e₃, hsteps, hopen, hsteps₂, hopen₃, ?_⟩
  rw [hreplay, replayContent, KeyedLog.replay_of_notMem (by decide +kernel), hstored.1]

/-- After the torn byte an insert returns, and the next recovery does not see it. -/
theorem acknowledged_op_lost :
    (create (sampleConfig .flat ⟨1, 1, 64, fun _ => 0⟩) (some { wal := tornByte })).map (fun e =>
      ((Write.insert (ascii "b") [0] ∅).exec
      (sampleConfig .flat ⟨1, 1, 64, fun _ => 0⟩) .byKey e).map id fun e => e.store.size) =
        .ok (.ok (), 1) ∧
    (create (sampleConfig .flat ⟨1, 1, 64, fun _ => 0⟩) (some { wal := tornByte }) >>= fun e =>
      create (sampleConfig .flat ⟨1, 1, 64, fun _ => 0⟩)
        ((Write.insert (ascii "b") [0] ∅).exec
        (sampleConfig .flat ⟨1, 1, 64, fun _ => 0⟩) .byKey e).2.disk).map
          (fun e => e.store.size) = .ok 0 := by
  decide +kernel

/-! ### Zeros behind the log -/

variable {disk : Disk} {base log : List Record} {n : Nat}

/-- From eight zeros on, recovery fails on a record with nothing in it. -/
theorem OnDisk.create_zeros (hon : OnDisk disk base log (List.replicate n 0)) (hdim : cfg.dim ≠ 0)
    (hops : ∀ r ∈ base ++ log, Acceptable cfg.dim r.op) (hn : 8 ≤ n) :
    create cfg (some disk) = .error (.runtimeError "decode_op: truncated record") := by
  obtain ⟨more, hmore, hcreate⟩ := hon.create_eq hdim
  obtain ⟨e, hreplay, -⟩ := replayFresh_yields disk hdim _ hops
  have hlog : ∀ r ∈ log, r.Readable := fun r hr => hon.readable r (List.mem_append_right _ hr)
  rw [hon.wal_eq, FileLogStore.replay_zeros _ (small_of_readable hlog)] at hmore
  obtain ⟨m, hm⟩ : ∃ m, n / 8 = m + 1 := ⟨n / 8 - 1, by omega⟩
  rw [hcreate, hreplay, ← List.append_cancel_left hmore, hm, List.replicate_succ]
  rfl

/-- **When zeros behind the log are tolerated.** Behind a log of valid ops, with or without a
snapshot, replay delivers exactly the records of the ops, and recovery yields the state after
exactly those ops, if and only if there are fewer than eight zeros. -/
theorem zero_tail_tolerated (cfg : EngineConfig Score) (hdim : cfg.dim ≠ 0) (disk : Disk)
    (base log : List Record)
    (n : Nat) (hon : OnDisk disk base log (List.replicate n 0))
    (hops : ∀ r ∈ base ++ log, Acceptable cfg.dim r.op) :
    (FileLogStore.replay disk.wal = log.map Record.bytes ↔ n < 8) ∧
    ((∃ e, create cfg (some disk) = .ok e ∧
      ((base ++ log).map Record.op).foldlM (replayOp cfg) (fresh cfg disk) = .ok e) ↔ n < 8) := by
  have hlog : ∀ r ∈ log, r.Readable := fun r hr => hon.readable r (List.mem_append_right _ hr)
  constructor
  · rw [hon.wal_eq, FileLogStore.replay_zeros _ (small_of_readable hlog), List.append_right_eq_self]
    rw [List.replicate_eq_nil_iff]
    omega
  · constructor
    · rintro ⟨e, hopen, -⟩
      by_contra hn
      rw [hon.create_zeros hdim hops (Nat.le_of_not_lt hn)] at hopen
      cases hopen
    · intro hn
      obtain ⟨e, hreplay, -⟩ := replayFresh_yields disk hdim _ hops
      refine ⟨e, ?_, hreplay⟩
      rw [hon.create_eq_replay (FileLogStore.next_zeros hn) hdim, hreplay]

/-- A record that inserts one entry. -/
def sampleRecord : Record := ⟨.byKey, ⟨.insert, ascii "a", [0], some ∅⟩⟩

/-- A log with one record, and zeros behind it. -/
def zeroTail (n : Nat) : Disk := { wal := FileLogStore.frame sampleRecord.bytes ++ List.replicate n 0 }

theorem zero_tail_tolerated_sample :
    ∃ e, create (sampleConfig .flat ⟨1, 1, 64, fun _ => 0⟩) (some (zeroTail 7)) = .ok e ∧
      e.store.size = 1 := by
  have hreadable : sampleRecord.Readable := ⟨by decide +kernel, fun hdelete => OpType.noConfusion hdelete⟩
  have hon : OnDisk (zeroTail 7) [] [sampleRecord] (List.replicate 7 0) :=
    ⟨by simp [zeroTail], .inr ⟨Finmap.lookup_empty _, rfl⟩, List.forall_mem_singleton.mpr hreadable⟩
  obtain ⟨e, hopen, hreplay⟩ := (zero_tail_tolerated (sampleConfig .flat ⟨1, 1, 64, fun _ => 0⟩)
    (by decide) (zeroTail 7) []
    [sampleRecord] 7 hon (List.forall_mem_singleton.mpr ⟨fun hdelete => OpType.noConfusion hdelete,
    fun _ => rfl⟩)).2.mpr
      (by decide)
  refine ⟨e, hopen, ?_⟩
  cases hreplay
  rfl

/-- Eight zeros, and the directory does not open. -/
theorem zero_tail_not_tolerated :
    FileLogStore.replay (zeroTail 8).wal = [sampleRecord.bytes, []] ∧
    create (sampleConfig .flat ⟨1, 1, 64, fun _ => 0⟩) (some (zeroTail 8)) =
      .error (.runtimeError "decode_op: truncated record") := by
  decide +kernel

end Engine

end ToyVdb
