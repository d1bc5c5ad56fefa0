import ToyVdb.Engine.Kill
import ToyVdb.Engine.PowerLoss

/-!
# Batched appends

Between two flushes a power loss can cut the log anywhere. What is read back is the log up to some record, not
before the last sync, so the engine that is opened is the one that was there after some number of the requests,
those before the last sync included.

Scores are linearly ordered: undefined distances are left out.
-/

namespace ToyVdb

open WriteBack

/-- The request is about the log only. -/
def Request.OnLog : Request → Prop
  | .call (.write _) => True
  | .call _ => False
  | .flush => True

/-- When the request returns, all of the log is safe. -/
def Request.Syncs (policy : SyncPolicy) : Request → Prop
  | .call _ => policy = .always
  | .flush => policy ≠ .off

/-- Every request that synced is among the first ones of the run. -/
def KeepsSynced (policy : SyncPolicy) (run : List (IterOrder × Request)) (n : Nat) : Prop :=
  ∀ i, ∀ hi : i < run.length, run[i].2.Syncs policy → i < n

theorem KeepsSynced.concat {policy : SyncPolicy} {run : List (IterOrder × Request)} {n : Nat}
    (h : KeepsSynced policy run n) {next : IterOrder × Request} (hnext : ¬ next.2.Syncs policy) :
    KeepsSynced policy (run ++ [next]) n := by
  intro i hi hsyncs
  rw [List.length_append, List.length_singleton] at hi
  by_cases hlt : i < run.length
  · rw [List.getElem_append_left hlt] at hsyncs
    exact h i hlt hsyncs
  · obtain rfl : i = run.length := by omega
    rw [List.getElem_concat_length] at hsyncs
    · exact absurd hsyncs hnext
    · rfl

theorem keepsSynced_length (policy : SyncPolicy) (run : List (IterOrder × Request)) :
    KeepsSynced policy run run.length :=
  fun _ hi _ => hi

namespace Engine

open Outcome

variable {Score : Type} {cfg : EngineConfig Score} {policy : SyncPolicy} {m m' : Machine} {order : IterOrder}
  {base log : List Record} {safe : Nat} {disk : Disk} {dir : Dir FileName UInt8}
  {done : List (Syscall FileName UInt8)}

/-! ### Runs -/

section Runs

variable [LT Score] [DecidableLT Score] {e : Engine}

theorem always_concat {P : Engine → IterOrder → Step → Prop} {run : List (IterOrder × Step)} {next : IterOrder × Step}
    (h : Always cfg P e (run ++ [next])) :
    Always cfg P e run ∧ ∀ e', e.steps cfg run = .ok e' → P e' next.1 next.2 := by
  induction run generalizing e with
  | nil =>
      refine ⟨trivial, fun e' he' => ?_⟩
      cases he'
      exact h.1
  | cons head run ih =>
      refine ⟨⟨h.1, fun e' he' => (ih (h.2 e' he')).1⟩, fun e' he' => ?_⟩
      rw [steps, List.foldlM_cons] at he'
      obtain ⟨e₁, hhead, hrest⟩ := exists_of_bind_eq_ok he'
      exact (ih (h.2 e₁ hhead)).2 e' hrest

theorem Machine.requests_concat (run : List (IterOrder × Request)) (next : IterOrder × Request) :
    m.requests cfg policy (run ++ [next]) = m.requests cfg policy run >>= fun m' =>
      m'.request cfg policy next.1 next.2 := by
  rw [Machine.requests, List.foldlM_append]
  refine congrArg _ (funext fun m' => ?_)
  exact bind_pure _

theorem Machine.steps_of_requests {run : List (IterOrder × Request)} (hrequests : m.requests cfg policy run = .ok m') :
    m.engine.steps cfg (run.map fun next => (next.1, next.2.step)) = .ok m'.engine := by
  induction run generalizing m with
  | nil =>
      cases hrequests
      rfl
  | cons next run ih =>
      rw [Machine.requests, List.foldlM_cons] at hrequests
      obtain ⟨m₁, hrequest, hrest⟩ := exists_of_bind_eq_ok hrequests
      rw [List.map_cons, steps, List.foldlM_cons, Machine.step_of_request hrequest]
      exact ih hrest

end Runs

/-! ### The invariant -/

/-- The directory records the content. All of the snapshot is safe, and of the log the first so many records:
all of them, when every append is synced. -/
structure Logging (cfg : EngineConfig Score) (policy : SyncPolicy) (m : Machine) (base log : List Record)
    (safe : Nat) : Prop extends Sane cfg m.engine where
  recorded : Recorded cfg m.engine.disk base log [] m.engine.store.content
  holds : ∀ disk, m.engine.disk = some disk → Holds m.dir disk
  safe_le : safe ≤ log.length
  always : policy = .always → safe = log.length
  wal : ∀ f, m.dir .wal = some f → Framing.offset FileLogStore.frame (log.map Record.bytes) safe ≤ f.synced
  blob : ∀ f, m.dir (.blob kSnapshotKey) = some f → f.Synced

/-- The content up to some record of the log. -/
def contentAt (cfg : EngineConfig Score) (base log : List Record) (k : Nat) : Bytes → Option Entry :=
  replayContent cfg.dim ((base ++ log.take k).map Record.op) fun _ => none

theorem Logging.contentAt_length (h : Logging cfg policy m base log safe) :
    contentAt cfg base log log.length = m.engine.store.content := by
  rw [contentAt, List.take_length]
  exact h.recorded.content_eq

theorem contentAt_append {k : Nat} (hk : k ≤ log.length) (more : List Record) :
    contentAt cfg base (log ++ more) k = contentAt cfg base log k := by
  rw [contentAt, contentAt, List.take_append_of_le_length hk]

theorem offset_length (log : List Record) :
    Framing.offset FileLogStore.frame (log.map Record.bytes) log.length =
      ((log.map Record.bytes).flatMap FileLogStore.frame).length := by
  rw [Framing.offset, ← List.length_map (f := Record.bytes), List.take_length]

theorem offset_append {k : Nat} (hk : k ≤ log.length) (more : List Record) :
    Framing.offset FileLogStore.frame ((log ++ more).map Record.bytes) k =
      Framing.offset FileLogStore.frame (log.map Record.bytes) k := by
  rw [Framing.offset, Framing.offset, List.map_append, List.take_append_of_le_length (by rwa [List.length_map])]

theorem Logging.wal_file (h : Logging cfg policy m base log safe) :
    ∃ f, m.dir .wal = some f ∧ f.bytes = (log.map Record.bytes).flatMap FileLogStore.frame := by
  obtain ⟨disk, hdisk, hon⟩ := h.recorded.onDisk
  obtain ⟨f, hf, hbytes⟩ := (h.holds disk hdisk).wal
  exact ⟨f, hf, by rw [hbytes, hon.wal_eq, List.append_nil]⟩

/-- A request that leaves another file behind the name of the log. -/
theorem Logging.rewritten (h : Logging cfg policy m base log safe) {e' : Engine} {g : File UInt8}
    {more : List Record} {safe' : Nat} (hkept : Kept cfg ⟨e', Function.update m.dir .wal (some g)⟩)
    (hrecorded : Recorded cfg e'.disk base (log ++ more) [] e'.store.content) (hle : safe' ≤ (log ++ more).length)
    (halways : policy = .always → safe' = (log ++ more).length)
    (hsynced : Framing.offset FileLogStore.frame ((log ++ more).map Record.bytes) safe' ≤ g.synced) :
    Logging cfg policy ⟨e', Function.update m.dir .wal (some g)⟩ base (log ++ more) safe' where
  toSane := hkept.toSane
  recorded := hrecorded
  holds := hkept.holds
  safe_le := hle
  always := halways
  wal f hf := by
    dsimp only at hf
    rw [Function.update_self] at hf
    cases hf
    exact hsynced
  blob f hf := by
    dsimp only at hf
    rw [Function.update_of_ne FileName.noConfusion] at hf
    exact h.blob f hf

theorem Logging.kept (h : Logging cfg policy m base log safe) : Kept cfg m :=
  ⟨⟨h.toSane, base, log, h.recorded⟩, h.holds⟩

section Step

variable [LinearOrder Score]

theorem Logging.logged (h : Logging cfg policy m base log safe) {w : Write}
    (hvalid : Valid cfg m.engine order (.call (.write w))) (hid : Logged m.engine w)
    (hrequest : m.request cfg policy order (.call (.write w)) = .ok m') (hkept : Kept cfg m') :
    ∃ safe', safe ≤ safe' ∧ (policy = .always → safe' = (log ++ [Record.mk order w.op]).length) ∧
      Logging cfg policy m' base (log ++ [⟨order, w.op⟩]) safe' := by
  obtain ⟨f, hf, hbytes⟩ := h.wal_file
  have hwritten := h.wf.write order w
  have hsmall := hvalid.2 hid
  obtain ⟨r', hmut⟩ := hwritten.mutated hid
  obtain ⟨-, hcontent⟩ := hwritten.content_eq h.wf h.store fun _ => length_vec_lt hsmall
  have happend := h.recorded.append (r := ⟨order, w.op⟩) ⟨hsmall, op_delete⟩
    (acceptable_of_not_rejects h.wf hid hsmall (accepted_of_fitsDim h.wf hvalid.1))
  rw [← hcontent] at happend
  have hcalls : m.engine.requestCalls cfg policy order (.call (.write w)) =
      FileLogStore.appendCalls policy (encodeOp order w.op) :=
    if_neg fun hskip => hid.elim hskip.1 fun hlive => hlive hskip.2
  have hm' : m' = ⟨(w.exec cfg order m.engine).2,
      exec m.dir (m.engine.requestCalls cfg policy order (.call (.write w)))⟩ :=
    (Except.ok.inj hrequest).symm
  subst hm'
  rw [hcalls] at hkept ⊢
  have hrecorded : Recorded cfg (w.exec cfg order m.engine).2.disk base (log ++ [⟨order, w.op⟩]) []
      (w.exec cfg order m.engine).2.store.content := by
    rw [hmut.applied.2]
    exact happend
  by_cases halways : policy = .always
  · subst halways
    rw [exec_appendCalls hf] at hkept ⊢
    refine ⟨(log ++ [Record.mk order w.op]).length, ?_, fun _ => rfl,
      h.rewritten hkept hrecorded (Nat.le_refl _) (fun _ => rfl) ?_⟩
    · rw [List.length_append]
      exact h.safe_le.trans (Nat.le_add_right _ _)
    · rw [offset_length]
      apply le_of_eq
      show _ = (f.bytes ++ _).length
      rw [hbytes]
      simp [Record.bytes]
  · obtain ⟨g, hexec, hg, hle⟩ := (appends_appendCalls policy (encodeOp order w.op)).exec_eq hf
    rw [hexec] at hkept ⊢
    refine ⟨safe, Nat.le_refl _, fun heq => absurd heq halways,
      h.rewritten hkept hrecorded ?_ (fun heq => absurd heq halways) ?_⟩
    · rw [List.length_append]
      exact h.safe_le.trans (Nat.le_add_right _ _)
    · rw [offset_append h.safe_le]
      exact (h.wal f hf).trans hle

/-- What a request on the log does: it adds a record or none, and may make all of them safe. -/
theorem Logging.request (h : Logging cfg policy m base log safe) {next : Request} (hon : next.OnLog)
    (hvalid : Valid cfg m.engine order next.step) (hrequest : m.request cfg policy order next = .ok m') :
    ∃ more safe', more.length ≤ 1 ∧ safe ≤ safe' ∧ (next.Syncs policy → safe' = (log ++ more).length) ∧
      Logging cfg policy m' base (log ++ more) safe' := by
  obtain ⟨m₁, hrequest₁, hkept⟩ := h.kept.request policy next hvalid
  cases hrequest₁.symm.trans hrequest
  cases next with
  | flush =>
      obtain ⟨f, hf, hbytes⟩ := h.wal_file
      have hm' : m' = ⟨m.engine, exec m.dir (FileLogStore.syncCalls policy)⟩ := (Except.ok.inj hrequest).symm
      subst hm'
      have hrecorded : Recorded cfg m.engine.disk base (log ++ []) [] m.engine.store.content := by
        rw [List.append_nil]
        exact h.recorded
      by_cases hoff : policy = .off
      · subst hoff
        refine ⟨[], safe, Nat.zero_le _, Nat.le_refl _, fun hsyncs => absurd rfl hsyncs, ?_⟩
        rw [List.append_nil]
        exact h
      · have hexec : exec m.dir (FileLogStore.syncCalls policy) = Function.update m.dir .wal (some f.sync) := by
          rw [FileLogStore.syncCalls, if_neg hoff]
          exact exec_fsync_cons hf []
        rw [hexec] at hkept ⊢
        refine ⟨[], log.length, Nat.zero_le _, h.safe_le, fun _ => by rw [List.append_nil],
          h.rewritten hkept hrecorded (by rw [List.append_nil]) (fun _ => by rw [List.append_nil]) ?_⟩
        rw [List.append_nil, offset_length, ← hbytes]
        exact Nat.le_refl _
  | call c =>
      cases c with
      | write w =>
          by_cases hid : Logged m.engine w
          · obtain ⟨safe', hle, halways, h'⟩ := h.logged hvalid hid hrequest hkept
            exact ⟨[_], safe', Nat.le_refl 1, hle, halways, h'⟩
          · -- an update or an erase of an absent id is skipped
            have hskip := hid
            rw [Logged, not_or, not_not] at hskip
            have hcalls : m.engine.requestCalls cfg policy order (.call (.write w)) = [] := if_pos hskip
            have hm' : m' = ⟨(w.exec cfg order m.engine).2,
                exec m.dir (m.engine.requestCalls cfg policy order (.call (.write w)))⟩ :=
              (Except.ok.inj hrequest).symm
            rw [hcalls, (h.wf.write order w).eq_of_not_logged hid] at hm'
            subst hm'
            refine ⟨[], safe, Nat.zero_le _, Nat.le_refl _, fun hsyncs => ?_, ?_⟩
            · rw [List.append_nil]
              exact h.always hsyncs
            · rw [List.append_nil]
              exact h
      | snapshot => exact hon.elim
      | compact => exact hon.elim

/-! ### After a crash -/

/-- A run of requests on the log. Every record but the unsafe ones leads to the content after some of them. -/
theorem Logging.requests (h : Logging cfg policy m base log log.length) (run : List (IterOrder × Request))
    (hon : ∀ next ∈ run, next.2.OnLog)
    (hvalid : Always cfg (Valid cfg) m.engine (run.map fun next => (next.1, next.2.step))) :
    ∃ m' log' safe, m.requests cfg policy run = .ok m' ∧ Logging cfg policy m' base log' safe ∧
      ∀ k, safe ≤ k → k ≤ log'.length → ∃ n ≤ run.length, KeepsSynced policy run n ∧
        ∃ mₙ, m.requests cfg policy (run.take n) = .ok mₙ ∧ mₙ.engine.store.content = contentAt cfg base log' k := by
  induction run using List.reverseRecOn with
  | nil =>
      refine ⟨m, log, log.length, rfl, h, fun k hsafe hk => ⟨0, Nat.le_refl 0, keepsSynced_length _ _, m, rfl, ?_⟩⟩
      rw [Nat.le_antisymm hk hsafe, h.contentAt_length]
  | append_singleton run next ih =>
      rw [List.map_append] at hvalid
      obtain ⟨hrun, hlast⟩ := always_concat hvalid
      obtain ⟨m', log', safe, hrequests, h', hpast⟩ := ih (fun r hr => hon r (List.mem_append_left _ hr)) hrun
      have hnext := hlast m'.engine (Machine.steps_of_requests hrequests)
      obtain ⟨m'', hrequest, -⟩ := h'.kept.request policy next.2 hnext
      obtain ⟨more, safe', hmore, hle, hsyncs, h''⟩ := h'.request (hon next (by simp)) hnext hrequest
      have hall : m.requests cfg policy (run ++ [next]) = .ok m'' := by
        rw [Machine.requests_concat, hrequests]
        exact hrequest
      refine ⟨m'', log' ++ more, safe', hall, h'', fun k hsafe hk => ?_⟩
      by_cases hcase : k = (log' ++ more).length
      · refine ⟨(run ++ [next]).length, Nat.le_refl _, keepsSynced_length _ _, m'', ?_, ?_⟩
        · rw [List.take_length, hall]
        · rw [hcase, h''.contentAt_length]
      · -- an earlier record: the last request has not synced
        have hold : k ≤ log'.length := by
          rw [List.length_append] at hk hcase
          omega
        obtain ⟨n, hn, hkept, mₙ, hprefix, hcontent⟩ := hpast k (hle.trans hsafe) hold
        refine ⟨n, ?_, hkept.concat fun hsync => hcase ?_, mₙ, ?_, ?_⟩
        · rw [List.length_append]
          exact hn.trans (Nat.le_add_right _ _)
        · rw [← hsyncs hsync]
          exact Nat.le_antisymm (by rw [hsyncs hsync]; exact hk) hsafe
        · rw [List.take_append_of_le_length hn, hprefix]
        · rw [hcontent, contentAt_append hold]

end Step

end Engine

end ToyVdb
