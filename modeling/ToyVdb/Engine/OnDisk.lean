import ToyVdb.Engine.Run
import ToyVdb.Codec.Size
import ToyVdb.Disk.Frames

/-!
# What recovery reads

A directory holds two lists of records: the snapshot's and the log's, and whatever a crash left behind the
log. Recovery replays the one and then the other. It does not need to know which of the log's ops the snapshot
already contains: the ops come from a monoid of idempotent effects, so replaying them again changes nothing.

Scores are linearly ordered, as the index that is rebuilt compares them: no distance is undefined.
-/

namespace ToyVdb

/-! ### Replaying twice -/

/-- What ops make of an entry: they leave it alone, replace it, or patch it if it is there. -/
inductive IsEffect : Function.End (Option Entry) → Prop
  | keep : IsEffect 1
  | set (e? : Option Entry) : IsEffect fun _ => e?
  | patch (vec : Vec) (m? : Option Metadata) : IsEffect fun e? => e?.map fun e => ⟨vec, m?.getD e.metadata⟩

theorem isEffect_patch_patch (vec vec' : Vec) (m? m'? : Option Metadata) :
    IsEffect fun e? => (e?.map fun e => Entry.mk vec' (m'?.getD e.metadata)).map
      fun e => ⟨vec, m?.getD e.metadata⟩ := by
  have hor : (fun e? : Option Entry => (e?.map fun e => Entry.mk vec' (m'?.getD e.metadata)).map
      fun e => Entry.mk vec (m?.getD e.metadata)) = fun e? => e?.map
      fun e => ⟨vec, (m?.or m'?).getD e.metadata⟩ := by
    funext e?
    cases e? <;> cases m? <;> rfl
  rw [hor]
  exact .patch vec (m?.or m'?)

def effects : Submonoid (Function.End (Option Entry)) where
  carrier := {f | IsEffect f}
  one_mem' := .keep
  mul_mem' := by
    intro f g hf hg
    cases hf with
    | keep => exact hg
    | set e? => exact .set e?
    | patch vec m? =>
        cases hg with
        | keep => exact .patch vec m?
        | set e? => exact .set (e?.map _)
        | patch vec' m'? => exact isEffect_patch_patch vec vec' m? m'?

theorem effects_idempotent (f : Function.End (Option Entry)) (hf : f ∈ effects) (e? : Option Entry) :
    f (f e?) = f e? := by
  cases hf with
  | keep => rfl
  | set => rfl
  | patch vec m? => cases e? <;> cases m? <;> rfl

theorem Op.effect_mem (dim : UInt32) (op : Op) : op.effect dim ∈ effects := by
  by_cases hdelete : op.type = .delete
  · rw [show op.effect dim = fun _ => none from funext fun e? => Op.effect_delete hdelete e?]
    exact .set none
  by_cases hfits : op.Fits dim
  · cases htype : op.type with
    | insert =>
        rw [show op.effect dim = fun _ => _ from funext fun e? => Op.effect_insert htype hfits e?]
        exact .set _
    | update =>
        rw [show op.effect dim = fun e? => _ from funext fun e? => Op.effect_update htype hfits e?]
        exact .patch op.vec op.metadata
    | delete => exact absurd htype hdelete
  · rw [show op.effect dim = (1 : Function.End (Option Entry)) from funext
      fun e? => Op.effect_of_not_fits hdelete hfits e?]
    exact .keep

/-- What a list of ops makes of a content. -/
def replayContent (dim : UInt32) (ops : List Op) (content : Bytes → Option Entry) : Bytes → Option Entry :=
  KeyedLog.replay (ops.map (Op.write dim)) content

theorem replayContent_append (dim : UInt32) (ops ops' : List Op) (content : Bytes → Option Entry) :
    replayContent dim (ops ++ ops') content = replayContent dim ops' (replayContent dim ops content) := by
  rw [replayContent, List.map_append, KeyedLog.replay_append]
  rfl

/-- Replaying ops over a content that already contains them changes nothing. -/
theorem replayContent_replayContent (dim : UInt32) (ops : List Op) (content : Bytes → Option Entry) :
    replayContent dim ops (replayContent dim ops content) = replayContent dim ops content := by
  apply KeyedLog.replay_replay effects effects_idempotent
  intro w hw
  obtain ⟨op, -, rfl⟩ := List.mem_map.mp hw
  exact op.effect_mem dim

/-! ### Records -/

/-- An op with the iteration order it was encoded under. -/
structure Record where
  order : IterOrder
  op : Op

def Record.bytes (r : Record) : Bytes := encodeOp r.order r.op

/-- The record can be framed and decoded. -/
structure Record.Readable (r : Record) : Prop where
  small : r.bytes.length < 2 ^ 32
  delete : r.op.type = .delete → r.op.vec = [] ∧ r.op.metadata = none

theorem Record.Readable.decode {r : Record} (h : r.Readable) : decodeOp r.bytes = .ok r.op :=
  decodeOp_encodeOp r.order (encodable_of_length h.small h.delete)

theorem small_of_readable {rs : List Record} (h : ∀ r ∈ rs, r.Readable) :
    ∀ record ∈ rs.map Record.bytes, record.length < 2 ^ 32 := by
  intro record hrecord
  obtain ⟨r, hr, rfl⟩ := List.mem_map.mp hrecord
  exact (h r hr).small

namespace Engine

open Outcome

/-- A directory with a snapshot and a log, and whatever is behind the log. -/
structure OnDisk (disk : Disk) (base log : List Record) (tail : Bytes) : Prop where
  wal_eq : disk.wal = (log.map Record.bytes).flatMap FileLogStore.frame ++ tail
  blob : disk.blobs.lookup kSnapshotKey = some ((base.map Record.bytes).flatMap snapshotFrame) ∨
    disk.blobs.lookup kSnapshotKey = none ∧ base = []
  readable : ∀ r ∈ base ++ log, r.Readable

variable {Score : Type} {cfg : EngineConfig Score} {disk : Disk} {base log : List Record} {tail : Bytes}

/-- An engine with nothing in it, on a directory. -/
def fresh (cfg : EngineConfig Score) (disk : Disk) : Engine := ⟨{ dim := cfg.dim }, Index.new cfg, some disk⟩

theorem content_fresh (cfg : EngineConfig Score) (disk : Disk) :
    (fresh cfg disk).store.content = fun _ => none :=
  funext (VectorStore.content_empty cfg.dim)

variable [LinearOrder Score]

theorem foldlM_replayRecord (rs : List Record) (hrs : ∀ r ∈ rs, r.Readable) (e : Engine) :
    (rs.map Record.bytes).foldlM (replayRecord cfg) e = (rs.map Record.op).foldlM (replayOp cfg) e := by
  induction rs generalizing e with
  | nil => rfl
  | cons r rs ih =>
      obtain ⟨hr, hrs⟩ := List.forall_mem_cons.mp hrs
      rw [List.map_cons, List.map_cons, List.foldlM_cons, List.foldlM_cons, replayRecord, hr.decode]
      exact congrArg _ (funext fun e' => ih hrs e')

/-- The records of the snapshot, if there is one. -/
def blobRecords (disk : Disk) : List Bytes :=
  match disk.blobs.lookup kSnapshotKey with
  | none => []
  | some data => snapshotRecords data

/-- Recovery replays the records of the snapshot and then those of the log. -/
theorem create_eq_records (disk : Disk) (hdim : cfg.dim ≠ 0) :
    create cfg (some disk) = (blobRecords disk ++ FileLogStore.replay disk.wal).foldlM
      (replayRecord cfg) (fresh cfg disk) := by
  rw [create, VectorStore.new, if_neg hdim]
  show recover cfg (fresh cfg disk) disk = _
  rw [recover, blobRecords, FileBlobStore.contains, FileBlobStore.get, List.foldlM_append]
  cases disk.blobs.lookup kSnapshotKey with
  | none => rfl
  | some data => rfl

theorem OnDisk.create_eq (h : OnDisk disk base log tail) (hdim : cfg.dim ≠ 0) :
    ∃ more, FileLogStore.replay disk.wal = log.map Record.bytes ++ more ∧
      create cfg (some disk) =
        (((base ++ log).map Record.op).foldlM (replayOp cfg) (fresh cfg disk) >>= more.foldlM
          (replayRecord cfg)) := by
  have hbase : ∀ r ∈ base, r.Readable := fun r hr => h.readable r (List.mem_append_left _ hr)
  have hlog : ∀ r ∈ log, r.Readable := fun r hr => h.readable r (List.mem_append_right _ hr)
  have hblob : blobRecords disk = base.map Record.bytes := by
    rw [blobRecords]
    rcases h.blob with hblob | ⟨hblob, rfl⟩
    · rw [hblob]
      exact snapshotRecords_frames _ (small_of_readable hbase)
    · rw [hblob]
      rfl
  obtain ⟨more, hmore⟩ := FileLogStore.replay_append _ (small_of_readable hlog) tail
  rw [← h.wal_eq] at hmore
  refine ⟨more, hmore, ?_⟩
  rw [create_eq_records disk hdim, hblob, hmore, ← List.append_assoc, ← List.map_append, List.foldlM_append,
    foldlM_replayRecord _ h.readable]

theorem OnDisk.create_eq_replay (h : OnDisk disk base log tail) (htail : FileLogStore.next tail = none)
    (hdim : cfg.dim ≠ 0) :
    create cfg (some disk) = ((base ++ log).map Record.op).foldlM (replayOp cfg) (fresh cfg disk) := by
  have hlog : ∀ r ∈ log, r.Readable := fun r hr => h.readable r (List.mem_append_right _ hr)
  obtain ⟨more, hmore, hcreate⟩ := h.create_eq hdim
  rw [h.wal_eq, FileLogStore.replay_frames _ (small_of_readable hlog) htail] at hmore
  rw [hcreate, List.append_right_eq_self.mp hmore.symm]
  exact bind_pure _

theorem replayFresh_yields (disk : Disk) (hdim : cfg.dim ≠ 0) (rs : List Record)
    (hops : ∀ r ∈ rs, Acceptable cfg.dim r.op) :
    Yields ((rs.map Record.op).foldlM (replayOp cfg) (fresh cfg disk))
      (Replayed cfg (fresh cfg disk) (rs.map Record.op)) := by
  refine replayOps_yields (wf_initial hdim _) (VectorStore.wf_empty cfg.dim) _ fun op hop => ?_
  obtain ⟨r, hr, rfl⟩ := List.mem_map.mp hop
  exact hops r hr

/-- With nothing readable behind the log, recovery yields the replay of snapshot and log. -/
theorem OnDisk.recovers (h : OnDisk disk base log tail) (htail : FileLogStore.next tail = none)
    (hdim : cfg.dim ≠ 0)
    (hops : ∀ r ∈ base ++ log, Acceptable cfg.dim r.op) :
    Yields (create cfg (some disk)) (Replayed cfg (fresh cfg disk) ((base ++ log).map Record.op)) := by
  rw [h.create_eq_replay htail hdim]
  exact replayFresh_yields disk hdim _ hops

end Engine

end ToyVdb
