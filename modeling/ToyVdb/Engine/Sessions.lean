import ToyVdb.Engine.Torn

/-!
# Sessions

Without snapshots, the log is the whole history: it holds exactly the ops that changed the state, in
order, and replaying it goes through the very states the engine went through. So an engine that is
closed and reopened is the engine it was, down to the order of the index's lists and the number of
levels drawn.

Scores are linearly ordered: undefined distances are left out.
-/

namespace ToyVdb

namespace Engine

open Outcome

variable {Score : Type} {cfg : EngineConfig Score} {e e' : Engine} {order : IterOrder} {w : Write} {op : Op}

/-! ### The directory has no say in what a mutation does -/

/-- The engine on another directory. -/
def withDisk (e : Engine) (disk? : Option Disk) : Engine := { e with disk := disk? }

theorem logOp_eq_withDisk (e : Engine) (order : IterOrder) (op : Op) :
    e.logOp order op = e.withDisk (e.logOp order op).disk :=
  rfl

/-- Same store, same index. -/
def SameState (e e' : Engine) : Prop := e'.store = e.store ∧ e'.index = e.index

theorem SameState.eq_withDisk (h : SameState e e') : e' = e.withDisk e'.disk := by
  obtain ⟨hstore, hindex⟩ := h
  cases e'
  simp only at hstore hindex
  rw [hstore, hindex]
  rfl

theorem sameState_withDisk (e : Engine) (disk? : Option Disk) : SameState e (e.withDisk disk?) := ⟨rfl, rfl⟩

theorem sameState_snapshot (e : Engine) (order : IterOrder) : SameState e (e.snapshot order) := ⟨rfl, rfl⟩

theorem SameState.trans {e'' : Engine} (h : SameState e e') (h' : SameState e' e'') : SameState e e'' :=
  ⟨h'.1.trans h.1, h'.2.trans h.2⟩

theorem SameState.symm (h : SameState e e') : SameState e' e := ⟨h.1.symm, h.2.symm⟩

section Independent

variable [LT Score] [DecidableLT Score]

theorem mutate_withDisk (e : Engine) (disk? : Option Disk) (op : Op) :
    (e.withDisk disk?).mutate cfg op = ((e.mutate cfg op).1, (e.mutate cfg op).2.withDisk disk?) := by
  unfold mutate withDisk
  cases op.type with
  | insert =>
      rcases e.store.apply op with ⟨_ | _ | id, s⟩
      · rfl
      · rfl
      · dsimp only
        by_cases hnew : (e.store.resolve op.extId).isNone = true
        · simp only [if_pos hnew]
          cases e.index.add cfg s id <;> rfl
        · simp only [if_neg hnew]
  | update => rcases e.store.apply op with ⟨_ | _, s⟩ <;> rfl
  | delete => rcases e.store.apply op with ⟨_ | _ | _, s⟩ <;> rfl

theorem replayOp_withDisk (e : Engine) (disk? : Option Disk) (op : Op) :
    (e.withDisk disk?).replayOp cfg op = (e.replayOp cfg op).map fun e => e.withDisk disk? := by
  rw [replayOp, replayOp, applyOp, applyOp, mutate_withDisk]
  rcases e.mutate cfg op with ⟨_ | _, e'⟩ <;> rfl

theorem replayOps_withDisk (cfg : EngineConfig Score) (ops : List Op) (e : Engine) (disk? : Option Disk) :
    ops.foldlM (replayOp cfg) (e.withDisk disk?) = (ops.foldlM (replayOp cfg) e).map
      fun e => e.withDisk disk? := by
  induction ops generalizing e with
  | nil => rfl
  | cons op ops ih =>
      rw [List.foldlM_cons, List.foldlM_cons, replayOp_withDisk]
      cases e.replayOp cfg op with
      | error err => rfl
      | ok e₁ => exact ih e₁

theorem SameState.search_eq (h : SameState e e') (query : Vec) (k : Nat) (filter : Option Filter) (ef : Nat) :
    e'.search cfg query k filter ef = e.search cfg query k filter ef := by
  rw [search, search, h.1, h.2]

end Independent

variable [LinearOrder Score]

theorem SameState.exec (h : SameState e e') (order order' : IterOrder) (w : Write) :
    SameState (w.exec cfg order e).2 (w.exec cfg order' e').2 := by
  rw [exec_eq, exec_eq, h.1]
  by_cases hskip : w.op.type ≠ .insert ∧ e.store.resolve w.op.extId = none
  · rw [if_pos hskip, if_pos hskip]
    exact h
  · rw [if_neg hskip, if_neg hskip, Prod.map_snd, Prod.map_snd, h.eq_withDisk, logOp_eq_withDisk e,
      logOp_eq_withDisk (e.withDisk e'.disk), mutate_withDisk]
    show SameState _ ((e.withDisk _).mutate cfg w.op).2
    rw [mutate_withDisk]
    exact ⟨rfl, rfl⟩

/-! ### The log is the history -/

/-- The directory holds a log and no snapshot, and replaying the log gives the engine. -/
structure History (cfg : EngineConfig Score) (e : Engine) (log : List Record) : Prop where
  dim_ne : cfg.dim ≠ 0
  disk_eq : e.disk = some { wal := (log.map Record.bytes).flatMap FileLogStore.frame }
  readable : ∀ r ∈ log, r.Readable
  replayed : (log.map Record.op).foldlM (replayOp cfg)
    (⟨{ dim := cfg.dim }, Index.new cfg, e.disk⟩ : Engine) = .ok e

theorem history_fresh (hdim : cfg.dim ≠ 0) : History cfg (fresh cfg {}) [] :=
  ⟨hdim, rfl, fun _ hr => absurd hr List.not_mem_nil, rfl⟩

theorem History.create_eq {log : List Record} (h : History cfg e log) : create cfg e.disk = .ok e := by
  have hon : OnDisk { wal := (log.map Record.bytes).flatMap FileLogStore.frame } [] log [] :=
    ⟨(List.append_nil _).symm, .inr ⟨Finmap.lookup_empty _, rfl⟩, h.readable⟩
  have hreplayed := h.replayed
  rw [h.disk_eq] at hreplayed ⊢
  exact (hon.create_eq_replay FileLogStore.next_nil h.dim_ne).trans hreplayed

theorem History.wf {log : List Record} (h : History cfg e log) : e.Wf cfg := wf_of_create h.create_eq

/-- A call that is not rejected adds its op to the history, or changes nothing. -/
theorem History.write {log : List Record} (h : History cfg e log) (hok : Accepted e (.call (.write w)))
    (hsmall : SmallRecord e order (.call (.write w))) : ∃ log', History cfg (w.exec cfg order e).2 log' := by
  rw [exec_eq]
  by_cases hskip : w.op.type ≠ .insert ∧ e.store.resolve w.op.extId = none
  · rw [if_pos hskip]
    exact ⟨log, h⟩
  rw [if_neg hskip, Prod.map_snd]
  have hid : Logged e w := by rwa [not_and_or, not_not] at hskip
  have hmut := (h.wf.logOp order w.op).mutate w.op
  cases hcall : (e.logOp order w.op).mutate cfg w.op with
  | mk r e₂ =>
  rw [hcall] at hmut
  have hdisk : e₂.disk = (e.logOp order w.op).disk := hmut.applied.2
  refine ⟨log ++ [⟨order, w.op⟩], h.dim_ne, ?_, fun r' hr' => ?_, ?_⟩
  · show e₂.disk = _
    rw [hdisk, logOp, h.disk_eq]
    simp [FileLogStore.append, Record.bytes]
  · rw [List.mem_append, List.mem_singleton] at hr'
    exact hr'.elim (h.readable r') fun heq => heq ▸ ⟨hsmall hid, op_delete⟩
  · -- up to here the replay goes through the engine before the call, on its new directory
    have hreplayed := replayOps_withDisk cfg (log.map Record.op) ⟨{ dim := cfg.dim }, Index.new cfg,
      e.disk⟩ e₂.disk
    rw [h.replayed] at hreplayed
    have hbefore : e.withDisk e₂.disk = e.logOp order w.op := by
      rw [hdisk]
      rfl
    rw [List.map_append, List.foldlM_append]
    show ((log.map Record.op).foldlM (replayOp cfg)
      (withDisk ⟨{ dim := cfg.dim }, Index.new cfg, e.disk⟩ e₂.disk) >>=
      fun e₁ => replayOp cfg e₁ w.op >>= pure) = .ok e₂
    rw [hreplayed]
    show (replayOp cfg (e.withDisk e₂.disk) w.op >>= pure) = _
    rw [hbefore, bind_pure, replayOp_eq, hcall]
    cases r with
    | ok n => rfl
    | error err => exact absurd (hmut.rejects_iff.mpr ⟨err, rfl⟩) hok

/-! ### Sessions -/

/-- Every session opens the directory and makes its calls. -/
def sessionSteps (sessions : List (List (IterOrder × Write))) : List (IterOrder × Step) :=
  sessions.flatMap fun session => (.byKey, .reopen) :: callSteps session

/-- The calls among the steps of a run. -/
def writesOf (run : List (IterOrder × Step)) : List Write :=
  run.filterMap fun next =>
    match next.2 with
    | .call (.write w) => some w
    | _ => none

theorem writesOf_callSteps (calls : List (IterOrder × Write)) :
    writesOf (callSteps calls) = calls.map Prod.snd := by
  induction calls with
  | nil => rfl
  | cons call calls ih => exact congrArg (call.2 :: ·) ih

theorem writesOf_sessionSteps (sessions : List (List (IterOrder × Write))) :
    writesOf (sessionSteps sessions) = sessions.flatten.map Prod.snd := by
  induction sessions with
  | nil => rfl
  | cons session sessions ih =>
      rw [List.flatten_cons, List.map_append, ← ih, ← writesOf_callSteps]
      exact List.filterMap_append

/-- A step of a session: opening the directory, or a call on an entry. -/
def Plain : Step → Prop
  | .call (.write _) => True
  | .reopen => True
  | _ => False

theorem plain_sessionSteps (sessions : List (List (IterOrder × Write))) :
    ∀ next ∈ sessionSteps sessions, Plain next.2 := by
  intro next hnext
  obtain ⟨session, -, hmem⟩ := List.mem_flatMap.mp hnext
  rcases List.mem_cons.mp hmem with rfl | hmem
  · trivial
  · obtain ⟨call, -, rfl⟩ := List.mem_map.mp hmem
    trivial

theorem SameState.smallRecord (h : SameState e e') (order order' : IterOrder)
    (hsmall : SmallRecord e order (.call (.write w))) : SmallRecord e' order' (.call (.write w)) := by
  intro hid
  have hlen := hsmall (by rwa [Logged, h.1] at hid)
  rw [length_encodeOp] at hlen ⊢
  rwa [length_encodeMeta order' order]

theorem SameState.accepted (h : SameState e e') (hok : Accepted e (.call (.write w))) :
    Accepted e' (.call (.write w)) := by
  show ¬ e'.store.Rejects w.op
  rw [h.1]
  exact hok

/-- Split and unsplit runs go through the same states. -/
theorem lockstep (split : List (IterOrder × Step)) (hplain : ∀ next ∈ split, Plain next.2)
    (calls : List (IterOrder × Write))
    (hcalls : writesOf split = calls.map Prod.snd) (hwf : e.Wf cfg)
    (hvalid : Always cfg (Valid cfg) e (callSteps calls))
    {log : List Record} (hhistory : History cfg e' log) (hsame : SameState e e') :
    ∃ e₁ e₁', e.steps cfg (callSteps calls) = .ok e₁ ∧ e'.steps cfg split = .ok e₁' ∧ SameState e₁ e₁' := by
  induction split generalizing calls e e' log with
  | nil =>
      cases List.map_eq_nil_iff.mp hcalls.symm
      exact ⟨e, e', rfl, rfl, hsame⟩
  | cons next split ih =>
      obtain ⟨hnext, hrest⟩ := List.forall_mem_cons.mp hplain
      obtain ⟨order, next⟩ := next
      cases next with
      | reopen =>
          obtain ⟨e₁, e₁', hsteps, hsteps', hsame'⟩ := ih hrest calls hcalls hwf hvalid hhistory hsame
          refine ⟨e₁, e₁', hsteps, ?_, hsame'⟩
          show (create cfg e'.disk >>= fun e => e.steps cfg split) = _
          rw [hhistory.create_eq]
          exact hsteps'
      | call m =>
          cases m with
          | compact => exact hnext.elim
          | write w =>
              cases calls with
              | nil => cases hcalls
              | cons call calls =>
                  obtain ⟨rfl, hlaterCalls⟩ := List.cons.inj hcalls
                  obtain ⟨⟨hfits, hsmall⟩, hlater⟩ := hvalid
                  have hok := accepted_of_fitsDim hwf hfits
                  obtain ⟨log', hhistory'⟩ := hhistory.write (hsame.accepted hok)
                    (hsame.smallRecord call.1 order hsmall)
                  exact ih hrest calls hlaterCalls ((hwf.write call.1 call.2).wf hwf) (hlater _ rfl) hhistory'
                    (hsame.exec call.1 order call.2)
      | flush => exact hnext.elim
      | snapshot => exact hnext.elim
      | cutSnapshot => exact hnext.elim
      | cutCompact => exact hnext.elim

/-- **Reopening is invisible.** Take any run of valid calls without snapshots on a durable engine,
and split it into sessions in any way. The engine that went through the sessions has the same store
and the same index as the one that was never closed, and every search returns the same hits. -/
theorem reopening_is_invisible (cfg : EngineConfig Score) (e₀ : Engine)
    (hcreate : create cfg (some {}) = .ok e₀)
    (calls : List (IterOrder × Write)) (hvalid : Always cfg (Valid cfg) e₀ (callSteps calls))
    (sessions : List (List (IterOrder × Write)))
    (hsplit : sessions.flatten.map Prod.snd = calls.map Prod.snd) :
    ∃ e e', e₀.steps cfg (callSteps calls) = .ok e ∧ e₀.steps cfg (sessionSteps sessions) = .ok e' ∧
      e'.store = e.store ∧ e'.index = e.index ∧
      ∀ query k filter ef, e'.search cfg query k filter ef = e.search cfg query k filter ef := by
  have hblank : (some ({} : Disk)).getD {} = {} := rfl
  obtain ⟨hdim, rfl⟩ := create_blank hblank hcreate
  obtain ⟨e, e', hsteps, hsteps', hsame⟩ :=
    lockstep (sessionSteps sessions) (plain_sessionSteps sessions) calls
    ((writesOf_sessionSteps sessions).trans hsplit) (wf_of_create hcreate) hvalid (history_fresh hdim)
    (sameState_withDisk _ _)
  exact ⟨e, e', hsteps, hsteps', hsame.1, hsame.2, hsame.search_eq⟩

/-- Insert two entries and erase the first. -/
def sessionCalls : List (IterOrder × Write) :=
  [(.byKey, .insert (ascii "a") [0] ∅), (.byKey, .insert (ascii "b") [0x41200000] ∅),
    (.byKey, .erase (ascii "a"))]

/-- The first entry is inserted in one session, the rest is done in the next. -/
theorem reopening_is_invisible_sample :
    ∃ e', (fresh (sampleConfig .hnsw ⟨1, 1, 64, fun n => n % 2⟩) {}).steps
        (sampleConfig .hnsw ⟨1, 1, 64, fun n => n % 2⟩)
        (sessionSteps [sessionCalls.take 1, sessionCalls.drop 1]) = .ok e' ∧
      e'.store.content (ascii "a") = none ∧ e'.store.content (ascii "b") = some ⟨[0x41200000], ∅⟩ ∧
      ∃ h, e'.index = .hnsw h ∧ h.entryPoint = some 1 ∧ h.links? 0 0 = some [1] ∧ h.links? 1 0 = some [0] := by
  obtain ⟨e, e', hsteps, hsteps', hstore, hindex, -⟩ :=
    reopening_is_invisible (sampleConfig .hnsw ⟨1, 1, 64, fun n => n % 2⟩) _ rfl
    sessionCalls ⟨⟨fun _ => rfl, fun _ => by decide +kernel⟩,
    fun _ _ => ⟨⟨fun _ => rfl, fun _ => by decide +kernel⟩,
      fun _ _ => ⟨⟨fun hop => absurd rfl hop, fun _ => by decide +kernel⟩, fun _ _ => trivial⟩⟩⟩
    [sessionCalls.take 1, sessionCalls.drop 1] rfl
  have hstored : e.store.content (ascii "a") = none ∧ e.store.content (ascii "b") = some ⟨[0x41200000], ∅⟩ := by
    cases hsteps
    decide +kernel
  have hgraph : ∃ h, e.index = .hnsw h ∧ h.entryPoint = some 1 ∧ h.links? 0 0 = some [1] ∧
      h.links? 1 0 = some [0] := by
    cases hsteps
    exact ⟨_, rfl, by decide +kernel⟩
  rw [← hstore, ← hindex] at *
  exact ⟨e', hsteps', hstored.1, hstored.2, hgraph⟩

end Engine

end ToyVdb
