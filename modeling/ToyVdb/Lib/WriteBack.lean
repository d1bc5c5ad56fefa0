import Mathlib.Tactic.Common
import Mathlib.Data.Option.Basic
import Mathlib.Logic.Function.Basic

/-!
# Files behind a write-back cache

What a program writes to a file is in the cache; an fsync makes what has been written so far safe. A
crash leaves of every file what is safe and some more of its beginning. Names are another matter: a
file that was created, truncated or renamed is so after a crash.
-/

namespace WriteBack

variable {κ β : Type}

/-! ### Files -/

/-- A file, and how much of its beginning is safe. -/
structure File (β : Type) where
  bytes : List β
  synced : Nat
  synced_le : synced ≤ bytes.length

namespace File

def empty : File β := ⟨[], 0, Nat.le_refl 0⟩

def write (f : File β) (bytes : List β) : File β where
  bytes := f.bytes ++ bytes
  synced := f.synced
  synced_le := Nat.le_trans f.synced_le (by rw [List.length_append]; exact Nat.le_add_right _ _)

def sync (f : File β) : File β := ⟨f.bytes, f.bytes.length, Nat.le_refl _⟩

/-- What a crash can leave of a file. -/
def Survives (f : File β) (image : List β) : Prop := ∃ n, f.synced ≤ n ∧ image = f.bytes.take n

/-- Everything in the file is safe. -/
def Synced (f : File β) : Prop := f.synced = f.bytes.length

variable {f : File β} {image : List β}

theorem survives_self (f : File β) : f.Survives f.bytes :=
  ⟨f.bytes.length, f.synced_le, List.take_length.symm⟩

theorem survives_of_prefix (hf : f.synced = 0) (h : image <+: f.bytes) : f.Survives image :=
  ⟨image.length, hf ▸ Nat.zero_le _, List.prefix_iff_eq_take.mp h⟩

/-- Behind what is safe, a crash leaves a beginning of what was written since. -/
theorem Synced.survives_write (hf : f.Synced) (bytes : List β) (h : (f.write bytes).Survives image) :
    ∃ n, image = f.bytes ++ bytes.take n := by
  obtain ⟨n, hn, rfl⟩ := h
  have hle : f.bytes.length ≤ n := by
    rw [← hf]
    exact hn
  refine ⟨n - f.bytes.length, ?_⟩
  show (f.bytes ++ bytes).take n = _
  rw [List.take_append, List.take_of_length_le hle]

theorem Synced.eq_of_survives (hf : f.Synced) (h : f.Survives image) : image = f.bytes := by
  have hwrite : f.write [] = f := by simp [write]
  rw [← hwrite] at h
  obtain ⟨n, himage⟩ := hf.survives_write [] h
  rw [himage, List.take_nil, List.append_nil]

end File

/-! ### Directories -/

/-- The files, by name. -/
abbrev Dir (κ β : Type) := κ → Option (File β)

inductive Syscall (κ β : Type)
  /-- Open a file for writing, empty; what was there is truncated. -/
  | create (name : κ)
  | write (name : κ) (bytes : List β)
  | fsync (name : κ)
  | rename (src dst : κ)

section Exec

variable [DecidableEq κ]

def Syscall.exec (dir : Dir κ β) : Syscall κ β → Dir κ β
  | .create name => Function.update dir name (some File.empty)
  | .write name bytes => Function.update dir name ((dir name).map fun f => f.write bytes)
  | .fsync name => Function.update dir name ((dir name).map File.sync)
  | .rename src dst => Function.update (Function.update dir dst (dir src)) src none

def exec (dir : Dir κ β) (calls : List (Syscall κ β)) : Dir κ β := calls.foldl Syscall.exec dir

theorem exec_append (dir : Dir κ β) (calls calls' : List (Syscall κ β)) :
    exec dir (calls ++ calls') = exec (exec dir calls) calls' :=
  List.foldl_append

end Exec

/-- What a process has done of its system calls when it dies: the first of them, and maybe a piece of a write. -/
inductive Cut : List (Syscall κ β) → List (Syscall κ β) → Prop
  | stop (calls : List (Syscall κ β)) : Cut calls []
  | piece (name : κ) {bytes piece : List β} (calls : List (Syscall κ β)) (hpiece : piece <+: bytes) :
      Cut (.write name bytes :: calls) [.write name piece]
  | step (call : Syscall κ β) {calls done : List (Syscall κ β)} (h : Cut calls done) :
      Cut (call :: calls) (call :: done)

/-- The calls write some bytes behind a file, and may sync it meanwhile. -/
inductive Appends (name : κ) : List (Syscall κ β) → List β → Prop
  | nil : Appends name [] []
  | write (bytes : List β) {calls : List (Syscall κ β)} {rest : List β} (h : Appends name calls rest) :
      Appends name (.write name bytes :: calls) (bytes ++ rest)
  | fsync {calls : List (Syscall κ β)} {rest : List β} (h : Appends name calls rest) :
      Appends name (.fsync name :: calls) rest

section Appends

variable [DecidableEq κ] {dir : Dir κ β} {name : κ} {f : File β} {calls done : List (Syscall κ β)} {bytes : List β}

theorem exec_nil_eq (hname : dir name = some f) : exec dir [] = Function.update dir name (some f) := by
  rw [← hname, Function.update_eq_self]
  rfl

theorem exec_nil_cut (hname : dir name = some f) (bytes : List β) :
    ∃ g piece, exec dir [] = Function.update dir name (some g) ∧ g.bytes = f.bytes ++ piece ∧
      piece <+: bytes ∧ f.synced ≤ g.synced :=
  ⟨f, [], exec_nil_eq hname, (List.append_nil _).symm, List.nil_prefix, Nat.le_refl _⟩

theorem exec_write_cons (hname : dir name = some f) (bytes : List β) (calls : List (Syscall κ β)) :
    exec dir (.write name bytes :: calls) = exec (Function.update dir name (some (f.write bytes))) calls := by
  simp [exec, Syscall.exec, hname]

theorem exec_fsync_cons (hname : dir name = some f) (calls : List (Syscall κ β)) :
    exec dir (.fsync name :: calls) = exec (Function.update dir name (some f.sync)) calls := by
  simp [exec, Syscall.exec, hname]

theorem Appends.exec_eq (h : Appends name calls bytes) (hname : dir name = some f) :
    ∃ g, exec dir calls = Function.update dir name (some g) ∧ g.bytes = f.bytes ++ bytes ∧
      f.synced ≤ g.synced := by
  induction h generalizing dir f with
  | nil => exact ⟨f, exec_nil_eq hname, (List.append_nil _).symm, Nat.le_refl _⟩
  | write bytes h ih =>
      obtain ⟨g, hexec, hbytes, hle⟩ := ih (Function.update_self name (some (f.write bytes)) dir)
      rw [Function.update_idem] at hexec
      exact ⟨g, (exec_write_cons hname ..).trans hexec, hbytes.trans (List.append_assoc ..), hle⟩
  | fsync h ih =>
      obtain ⟨g, hexec, hbytes, hle⟩ := ih (Function.update_self name (some f.sync) dir)
      rw [Function.update_idem] at hexec
      exact ⟨g, (exec_fsync_cons hname _).trans hexec, hbytes, Nat.le_trans f.synced_le hle⟩

theorem Appends.exec_cut (h : Appends name calls bytes) (hname : dir name = some f) (hcut : Cut calls done) :
    ∃ g piece, exec dir done = Function.update dir name (some g) ∧ g.bytes = f.bytes ++ piece ∧
      piece <+: bytes ∧ f.synced ≤ g.synced := by
  induction h generalizing dir f done with
  | nil =>
      cases hcut with
      | stop => exact exec_nil_cut hname _
  | write bytes h ih =>
      cases hcut with
      | stop => exact exec_nil_cut hname _
      | piece name calls hpiece =>
          exact ⟨f.write _, _, exec_write_cons hname .., rfl, hpiece.trans (List.prefix_append _ _), Nat.le_refl _⟩
      | step call hcut =>
          obtain ⟨g, piece, hexec, hbytes, hpiece, hle⟩ :=
            ih (Function.update_self name (some (f.write bytes)) dir) hcut
          rw [Function.update_idem] at hexec
          exact ⟨g, bytes ++ piece, (exec_write_cons hname ..).trans hexec,
            hbytes.trans (List.append_assoc ..), (List.prefix_append_right_inj _).mpr hpiece, hle⟩
  | fsync h ih =>
      cases hcut with
      | stop => exact exec_nil_cut hname _
      | step call hcut =>
          obtain ⟨g, piece, hexec, hbytes, hpiece, hle⟩ := ih (Function.update_self name (some f.sync) dir) hcut
          rw [Function.update_idem] at hexec
          exact ⟨g, piece, (exec_fsync_cons hname _).trans hexec, hbytes, hpiece, Nat.le_trans f.synced_le hle⟩

end Appends

/-- What a crash can leave of a directory. -/
def Crash (dir : Dir κ β) (image : κ → Option (List β)) : Prop :=
  ∀ name, Option.Rel File.Survives (dir name) (image name)

section Crash

variable {dir : Dir κ β} {image : κ → Option (List β)} {name : κ} {f : File β}

theorem Crash.survives (h : Crash dir image) (hname : dir name = some f) :
    ∃ bytes, image name = some bytes ∧ f.Survives bytes := by
  have hrel := h name
  rw [hname] at hrel
  generalize image name = left at hrel ⊢
  cases hrel with
  | some hsurvives => exact ⟨_, rfl, hsurvives⟩

theorem Crash.absent (h : Crash dir image) (hname : dir name = none) : image name = none := by
  have hrel := h name
  rw [hname] at hrel
  generalize image name = left at hrel ⊢
  cases hrel with
  | none => rfl

end Crash

end WriteBack
