import ToyVdb.Engine.Replay
import ToyVdb.Index.Distance

/-!
# Runs of the engine

The calls a client makes, and what any sequence of them keeps: the engine stays well formed, whatever
vectors it is given and whether or not calls throw in between.

Scores are linearly ordered: undefined distances are left out.
-/

namespace ToyVdb

variable {Score : Type} {cfg : EngineConfig Score}

/-- A call on one entry. -/
inductive Write
  | insert (extId : Bytes) (vec : Vec) (m : Metadata)
  | update (extId : Bytes) (vec : Vec) (m? : Option Metadata)
  | erase (extId : Bytes)

/-- The op a call logs and applies. -/
def Write.op : Write → Op
  | .insert extId vec m => ⟨.insert, extId, vec, some m⟩
  | .update extId vec m? => ⟨.update, extId, vec, m?⟩
  | .erase extId => ⟨.delete, extId, [], none⟩

inductive Mutation
  | write (w : Write)
  | compact

section Exec

variable [LT Score] [DecidableLT Score] (cfg : EngineConfig Score)

/-- A call, with its result reduced to whether it threw. -/
def Write.exec (order : IterOrder) (e : Engine) : Write → Except Error Unit × Engine
  | .insert extId vec m => Prod.map (Except.map fun _ => ()) (fun e => e) (e.insert cfg order extId vec m)
  | .update extId vec m? => Prod.map (Except.map fun _ => ()) (fun e => e) (e.update cfg order extId vec m?)
  | .erase extId => Prod.map (Except.map fun _ => ()) (fun e => e) (e.erase cfg order extId)

def Mutation.exec (order : IterOrder) (e : Engine) : Mutation → Except Error Unit × Engine
  | .write w => w.exec cfg order e
  | .compact => e.compact cfg order

/-- A sequence of calls, each with the order in which it iterates hash maps; a call that throws leaves the
engine as it is then. -/
def Engine.run (e : Engine) (calls : List (IterOrder × Mutation)) : Engine :=
  calls.foldl (fun e call => (call.2.exec cfg call.1 e).2) e

end Exec

namespace Engine

open Outcome

variable {e e' : Engine} {w : Write} {order : IterOrder} {r : Except Error Unit}

theorem Wf.congr (hwf : e.Wf cfg) (hstore : e'.store = e.store) (hindex : e'.index = e.index) :
    e'.Wf cfg := by
  refine ⟨hstore ▸ hwf.ids, hwf.dim_ne, hstore ▸ hwf.dim_eq, ?_⟩
  rw [hstore, hindex]
  exact hwf.index

/-! ### One call -/

/-- What a call on one entry does: nothing when it updates or erases an absent id, else it logs its op and
applies it, in that order. -/
inductive Written (cfg : EngineConfig Score) (e : Engine) (order : IterOrder) (w : Write) :
    Except Error Unit → Engine → Prop
  | skipped (hop : w.op.type ≠ .insert) (hid : e.store.resolve w.op.extId = none) :
      Written cfg e order w (.ok ()) e
  | done {n : Nat} {e' : Engine} (hid : w.op.type = .insert ∨ e.store.resolve w.op.extId ≠ none)
      (hmut : Mutated cfg (e.logOp order w.op) w.op (.ok n) e') : Written cfg e order w (.ok ()) e'
  | thrown {err : Error} {e' : Engine} (hid : w.op.type = .insert ∨ e.store.resolve w.op.extId ≠ none)
      (hmut : Mutated cfg (e.logOp order w.op) w.op (.error err) e') : Written cfg e order w (.error err) e'

theorem Wf.logOp (hwf : e.Wf cfg) (order : IterOrder) (op : Op) : (e.logOp order op).Wf cfg :=
  hwf.congr rfl rfl

theorem Mutated.written {r : Except Error Nat} (hmut : Mutated cfg (e.logOp order w.op) w.op r e')
    (hid : w.op.type = .insert ∨ e.store.resolve w.op.extId ≠ none) :
    Written cfg e order w (r.map fun _ => ()) e' := by
  cases r with
  | ok n => exact .done hid hmut
  | error err => exact .thrown hid hmut

theorem exec_eq [LT Score] [DecidableLT Score] (e : Engine) (order : IterOrder) (w : Write) :
    w.exec cfg order e = if w.op.type ≠ .insert ∧ e.store.resolve w.op.extId = none then (.ok (), e)
      else Prod.map (Except.map fun _ => ()) (fun e => e) ((e.logOp order w.op).mutate cfg w.op) := by
  cases w with
  | insert extId vec m => exact (if_neg fun h => h.1 rfl).symm
  | update extId vec m? =>
      simp only [Write.exec, Write.op, update, applyOp, Option.isNone_iff_eq_none, ne_eq,
        reduceCtorEq, not_false_eq_true,
        true_and]
      split_ifs
      · rfl
      · cases (e.logOp order ⟨.update, extId, vec, m?⟩).mutate cfg ⟨.update, extId, vec, m?⟩ with
        | mk r e' => cases r <;> rfl
  | erase extId =>
      simp only [Write.exec, Write.op, erase, applyOp, Option.isNone_iff_eq_none, ne_eq,
        reduceCtorEq, not_false_eq_true,
        true_and]
      split_ifs
      · rfl
      · cases (e.logOp order ⟨.delete, extId, [], none⟩).mutate cfg ⟨.delete, extId, [], none⟩ with
        | mk r e' => cases r <;> rfl

variable [LinearOrder Score]

theorem Wf.write (hwf : e.Wf cfg) (order : IterOrder) (w : Write) :
    Written cfg e order w (w.exec cfg order e).1 (w.exec cfg order e).2 := by
  have hmut := (hwf.logOp order w.op).mutate w.op
  rw [exec_eq]
  by_cases hskip : w.op.type ≠ .insert ∧ e.store.resolve w.op.extId = none
  · rw [if_pos hskip]
    exact .skipped hskip.1 hskip.2
  · rw [if_neg hskip]
    exact hmut.written (by rwa [not_and_or, not_not] at hskip)

omit [LinearOrder Score] in
theorem Written.wf (h : Written cfg e order w r e') (hwf : e.Wf cfg) : e'.Wf cfg := by
  cases h with
  | skipped => exact hwf
  | done _ hmut => exact hmut.wf (hwf.logOp order w.op)
  | thrown _ hmut => exact hmut.wf (hwf.logOp order w.op)

omit [LinearOrder Score] in
theorem Wf.snapshot (hwf : e.Wf cfg) (order : IterOrder) : (e.snapshot order).Wf cfg := hwf.congr rfl rfl

theorem Wf.compact (hwf : e.Wf cfg) (order : IterOrder) :
    ∃ e' : Engine, e.compact cfg order = (.ok (), e'.snapshot order) ∧ e'.Wf cfg ∧ e'.store.Wf ∧
      e'.disk = e.disk ∧
      e'.store.content = e.store.content := by
  obtain ⟨e', hrebuild, hwf', hstore, hdisk, hcontent, -⟩ := hwf.rebuild_eq
  refine ⟨e', ?_, hwf', hstore, hdisk, hcontent⟩
  rw [Engine.compact, hrebuild]

theorem Wf.exec (hwf : e.Wf cfg) (order : IterOrder) (m : Mutation) : (m.exec cfg order e).2.Wf cfg := by
  cases m with
  | write w => exact (hwf.write order w).wf hwf
  | compact =>
      obtain ⟨e', hcompact, hwf', -⟩ := hwf.compact order
      rw [Mutation.exec, hcompact]
      exact hwf'.snapshot order

/-! ### Whole runs -/

theorem Wf.run (hwf : e.Wf cfg) (calls : List (IterOrder × Mutation)) : (e.run cfg calls).Wf cfg := by
  induction calls generalizing e with
  | nil => exact hwf
  | cons call calls ih => exact ih (hwf.exec call.1 call.2)

theorem Wf.replayRecord (hwf : e.Wf cfg) {record : Bytes} (hreplay : e.replayRecord cfg record = .ok e') :
    e'.Wf cfg ∧ e'.disk = e.disk := by
  obtain ⟨op, -, hreplay⟩ := exists_of_bind_eq_ok hreplay
  obtain ⟨n, hcall⟩ := mutate_of_replayOp hreplay
  have hmut := hwf.mutate op
  rw [hcall] at hmut
  exact ⟨hmut.wf hwf, hmut.applied.2⟩

theorem create_blank {disk : Option Disk} (hblank : disk.getD {} = {}) {e₀ : Engine}
    (hcreate : create cfg disk = .ok e₀) :
    cfg.dim ≠ 0 ∧ e₀ = ⟨{ dim := cfg.dim }, Index.new cfg, disk⟩ := by
  rw [create, VectorStore.new] at hcreate
  by_cases hdim : cfg.dim = 0
  · rw [if_pos hdim] at hcreate
    cases hcreate
  rw [if_neg hdim] at hcreate
  cases disk with
  | none =>
      cases hcreate
      exact ⟨hdim, rfl⟩
  | some disk =>
      cases (show disk = {} from hblank)
      cases hcreate
      exact ⟨hdim, rfl⟩

/-- What every replayed record keeps, an engine that opens has. -/
theorem invariant_create {Inv : Engine → Prop} {disk? : Option Disk}
    (hinit : cfg.dim ≠ 0 → Inv ⟨{ dim := cfg.dim }, Index.new cfg, disk?⟩)
    (hstep : ∀ e record e', Inv e → e.replayRecord cfg record = .ok e' → Inv e') {e₀ : Engine}
    (hcreate : create cfg disk? = .ok e₀) : Inv e₀ := by
  rw [create, VectorStore.new] at hcreate
  by_cases hdim : cfg.dim = 0
  · rw [if_pos hdim] at hcreate
    cases hcreate
  rw [if_neg hdim] at hcreate
  have hrecords := invariant_foldlM hstep
  cases disk? with
  | none =>
      cases hcreate
      exact hinit hdim
  | some disk =>
      change Engine.recover cfg _ disk = .ok e₀ at hcreate
      rw [recover] at hcreate
      by_cases hsnapshot : disk.blobs.contains kSnapshotKey = true
      · rw [if_pos hsnapshot] at hcreate
        obtain ⟨data, -, hcreate⟩ := exists_of_bind_eq_ok hcreate
        obtain ⟨e₁, hblob, hwal⟩ := exists_of_bind_eq_ok hcreate
        exact hrecords _ e₁ e₀ (hrecords _ _ e₁ (hinit hdim) hblob) hwal
      · rw [if_neg hsnapshot] at hcreate
        exact hrecords _ _ e₀ (hinit hdim) hcreate

theorem wf_of_create {disk? : Option Disk} {e₀ : Engine} (hcreate : create cfg disk? = .ok e₀) : e₀.Wf cfg :=
  invariant_create (fun hdim => wf_initial hdim disk?)
  (fun _ _ _ hwf hreplay => (hwf.replayRecord hreplay).1) hcreate

theorem disk_of_create {disk? : Option Disk} {e₀ : Engine} (hcreate : create cfg disk? = .ok e₀) :
    e₀.disk = disk? := by
  let Inv : Engine → Prop := fun e => e.Wf cfg ∧ e.disk = disk?
  have hstep : ∀ e record e', Inv e → e.replayRecord cfg record = .ok e' → Inv e' := by
    intro e record e' hinv hreplay
    obtain ⟨hwf, hdisk⟩ := hinv.1.replayRecord hreplay
    exact ⟨hwf, hdisk.trans hinv.2⟩
  have hinv : Inv e₀ := invariant_create (fun hdim => ⟨wf_initial hdim disk?, rfl⟩) hstep hcreate
  exact hinv.2

/-- A one-dimensional engine. -/
def sampleConfig (kind : IndexKind) (params : HnswParams) : EngineConfig Int := ⟨1, l2, kind, params⟩

end Engine

end ToyVdb
