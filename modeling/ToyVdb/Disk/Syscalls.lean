import ToyVdb.Disk.Frames
import ToyVdb.Lib.WriteBack

/-!
# What the stores ask of the operating system

The log and the blobs as files behind a write-back cache, and the system calls that the operations
on them make. In the absence of crashes the files hold what the model of the disk says they do.
-/

namespace ToyVdb

open LittleEndian WriteBack

inductive SyncPolicy
  | always
  | groupCommit
  | off
deriving DecidableEq

/-- The files of a persistence directory. -/
inductive FileName
  | wal
  | blob (name : Bytes)
deriving DecidableEq

/-! ### System calls -/

namespace FileLogStore

def syncCalls (policy : SyncPolicy) : List (Syscall FileName UInt8) :=
  if policy = .off then [] else [.fsync .wal]

/-- Header and payload are written one after the other. -/
def appendCalls (policy : SyncPolicy) (record : Bytes) : List (Syscall FileName UInt8) :=
  [.write .wal (bytes 4 (crc32 record).toNat ++ bytes 4 record.length), .write .wal record] ++
    if policy = .always then syncCalls policy else []

/-- The log is opened again with `O_TRUNC`. -/
def truncateCalls : List (Syscall FileName UInt8) := [.create .wal]

end FileLogStore

namespace FileBlobStore

/-- Nothing is synced, neither the file nor the directory. -/
def putCalls (key data : Bytes) : List (Syscall FileName UInt8) :=
  [.create (.blob (key ++ ascii ".tmp")), .write (.blob (key ++ ascii ".tmp")) data,
    .rename (.blob (key ++ ascii ".tmp")) (.blob key)]

theorem tmp_ne (key : Bytes) : key ++ ascii ".tmp" ≠ key := by
  intro heq
  have hlen := congrArg List.length heq
  rw [List.length_append] at hlen
  exact absurd hlen (by rw [show (ascii ".tmp").length = 4 by decide]; omega)

end FileBlobStore

/-! ### The files without a crash -/

/-- The files of a directory, by name. -/
def Disk.files (disk : Disk) : FileName → Option Bytes
  | .wal => some disk.wal
  | .blob name => disk.blobs.lookup name

/-- The files hold what the disk does. -/
def Holds (dir : Dir FileName UInt8) (disk : Disk) : Prop :=
  ∀ name, (dir name).map File.bytes = disk.files name

variable {dir : Dir FileName UInt8} {disk : Disk}

theorem Holds.wal (h : Holds dir disk) : ∃ f, dir .wal = some f ∧ f.bytes = disk.wal :=
  Option.map_eq_some_iff.mp (h .wal)

theorem Holds.blob (h : Holds dir disk) {name data : Bytes} (hdata : disk.blobs.lookup name = some data) :
    ∃ f, dir (.blob name) = some f ∧ f.bytes = data :=
  Option.map_eq_some_iff.mp ((h (.blob name)).trans hdata)

theorem Holds.blob_absent (h : Holds dir disk) {name : Bytes} (hnone : disk.blobs.lookup name = none) :
    dir (.blob name) = none := Option.map_eq_none_iff.mp ((h (.blob name)).trans hnone)

theorem Holds.update_wal (h : Holds dir disk) (f : File UInt8) :
    Holds (Function.update dir .wal (some f)) { disk with wal := f.bytes } := by
  intro name
  cases name with
  | wal =>
      rw [Function.update_self]
      rfl
  | blob name =>
      rw [Function.update_of_ne FileName.noConfusion]
      exact h (.blob name)

theorem exec_appendCalls {f : File UInt8} (hwal : dir .wal = some f) (record : Bytes) :
    exec dir (FileLogStore.appendCalls .always record) =
      Function.update dir .wal (some (f.write (FileLogStore.frame record)).sync) := by
  simp [exec, FileLogStore.appendCalls, FileLogStore.syncCalls, Syscall.exec, hwal, File.write,
    File.sync, FileLogStore.frame]

/-- Until it is synced, a beginning of the frame is behind the log. -/
theorem exec_take_appendCalls {f : File UInt8} (hwal : dir .wal = some f) (record : Bytes) {j : Nat}
    (hj : j < (FileLogStore.appendCalls .always record).length) :
    ∃ piece, piece <+: FileLogStore.frame record ∧
      exec dir ((FileLogStore.appendCalls .always record).take j) = Function.update dir .wal
        (some (f.write piece)) := by
  change j < 3 at hj
  obtain rfl | rfl | rfl : j = 0 ∨ j = 1 ∨ j = 2 := by omega
  · refine ⟨[], List.nil_prefix, ?_⟩
    have hwrite : f.write [] = f := by simp [File.write]
    rw [hwrite, ← hwal, Function.update_eq_self]
    rfl
  · refine ⟨_, List.prefix_append _ record, ?_⟩
    simp [exec, FileLogStore.appendCalls, Syscall.exec, hwal]
  · refine ⟨_, List.prefix_refl _, ?_⟩
    simp [exec, FileLogStore.appendCalls, Syscall.exec, hwal, File.write, FileLogStore.frame]

theorem appends_syncCalls (policy : SyncPolicy) : Appends .wal (FileLogStore.syncCalls policy) ([] : Bytes) := by
  cases policy with
  | always => exact .fsync .nil
  | groupCommit => exact .fsync .nil
  | off => exact .nil

/-- Under any policy, an append writes a frame behind the log. -/
theorem appends_appendCalls (policy : SyncPolicy) (record : Bytes) :
    Appends .wal (FileLogStore.appendCalls policy record) (FileLogStore.frame record) := by
  have hsync : Appends FileName.wal (if policy = .always then FileLogStore.syncCalls policy else []) ([] : Bytes) := by
    split
    · exact appends_syncCalls policy
    · exact .nil
  have hwrites := (hsync.write record).write (bytes 4 (crc32 record).toNat ++ bytes 4 record.length)
  rwa [List.append_nil] at hwrites

theorem exec_truncateCalls (dir : Dir FileName UInt8) :
    exec dir FileLogStore.truncateCalls = Function.update dir .wal (some File.empty) := rfl

/-- A blob is published with nothing of it safe. -/
theorem exec_putCalls (dir : Dir FileName UInt8) (key data : Bytes) :
    exec dir (FileBlobStore.putCalls key data) =
      Function.update (Function.update dir (.blob (key ++ ascii ".tmp")) none) (.blob key)
        (some (File.empty.write data)) := by
  have hne : FileName.blob (key ++ ascii ".tmp") ≠ .blob key :=
    fun heq => FileBlobStore.tmp_ne key (FileName.blob.inj heq)
  simp [exec, FileBlobStore.putCalls, Syscall.exec, Function.update_comm hne]

theorem Holds.wal_eq (h : Holds dir disk) {f : File UInt8} (hwal : dir .wal = some f) : disk.wal = f.bytes := by
  have hfile := h .wal
  rw [hwal] at hfile
  exact (Option.some.inj hfile).symm

theorem Holds.appends (h : Holds dir disk) {calls : List (Syscall FileName UInt8)} {bytes : Bytes}
    (happends : Appends .wal calls bytes) : Holds (exec dir calls) { disk with wal := disk.wal ++ bytes } := by
  obtain ⟨f, hwal, hbytes⟩ := h.wal
  obtain ⟨g, hexec, hg, -⟩ := happends.exec_eq hwal
  rw [hexec, ← hbytes, ← hg]
  exact h.update_wal g

theorem Holds.append (h : Holds dir disk) (record : Bytes) :
    Holds (exec dir (FileLogStore.appendCalls .always record))
      { disk with wal := FileLogStore.append disk.wal record } := by
  obtain ⟨f, hwal, hbytes⟩ := h.wal
  rw [exec_appendCalls hwal, FileLogStore.append, ← hbytes]
  exact h.update_wal _

theorem Holds.truncate (h : Holds dir disk) :
    Holds (exec dir FileLogStore.truncateCalls) { disk with wal := [] } :=
  h.update_wal File.empty

theorem Holds.put (h : Holds dir disk) (key data : Bytes) :
    Holds (exec dir (FileBlobStore.putCalls key data)) { disk with blobs := disk.blobs.put key data } := by
  rw [exec_putCalls]
  intro name
  cases name with
  | wal =>
      rw [Function.update_of_ne FileName.noConfusion, Function.update_of_ne FileName.noConfusion]
      exact h .wal
  | blob name =>
      show _ = (disk.blobs.put key data).lookup name
      by_cases hkey : name = key
      · subst hkey
        rw [Function.update_self, FileBlobStore.lookup_put]
        rfl
      · have hne : FileName.blob name ≠ .blob key := fun heq => hkey (FileName.blob.inj heq)
        rw [Function.update_of_ne hne, FileBlobStore.lookup_put_of_ne _ hkey]
        by_cases htmp : name = key ++ ascii ".tmp"
        · rw [if_pos htmp, htmp, Function.update_self]
          rfl
        · have hne' : FileName.blob name ≠ .blob (key ++ ascii ".tmp") :=
            fun heq => htmp (FileName.blob.inj heq)
          rw [if_neg htmp, Function.update_of_ne hne', h (.blob name)]
          rfl

end ToyVdb
