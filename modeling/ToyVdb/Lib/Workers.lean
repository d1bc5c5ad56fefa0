import Mathlib.Tactic.Common
import Mathlib.Data.List.Perm.Basic

/-!
# Workers that take turns

Each worker has a list of jobs to do in order. A schedule says at every turn which of the workers
that are not done does its next job. Whatever the schedule, the jobs are done in some order of all
of them, each as often as it is on a list. Where a job does nothing but fill a slot of its own, the
order does not matter.
-/

namespace Workers

section Turns

variable {ι : Type}

/-- The jobs in the order they are done, for at most `n` turns. -/
def turns (schedule : Nat → Nat) : Nat → List (List ι) → List ι
  | 0, _ => []
  | n + 1, workers =>
    let busy := workers.filter fun jobs => !jobs.isEmpty
    let t := schedule n % busy.length
    match busy[t]? with
    | some (job :: jobs) => job :: turns schedule n (busy.set t jobs)
    | _ => []

/-- The jobs in the order they are done. -/
def order (schedule : Nat → Nat) (workers : List (List ι)) : List ι :=
  turns schedule workers.flatten.length workers

theorem flatten_busy (workers : List (List ι)) :
    (workers.filter fun jobs => !jobs.isEmpty).flatten = workers.flatten := by
  induction workers with
  | nil => rfl
  | cons jobs workers ih =>
      cases jobs with
      | nil => exact ih
      | cons job jobs => exact congrArg (job :: jobs ++ ·) ih

theorem flatten_set_perm {workers : List (List ι)} {t : Nat} {job : ι} {jobs : List ι}
    (ht : workers[t]? = some (job :: jobs)) :
    (job :: (workers.set t jobs).flatten).Perm workers.flatten := by
  induction workers generalizing t with
  | nil => cases ht
  | cons first workers ih =>
      cases t with
      | zero =>
          cases ht
          exact .refl _
      | succ t =>
          have hrest := ih (show workers[t]? = some (job :: jobs) from ht)
          exact List.perm_middle.symm.trans (hrest.append_left first)

theorem turns_perm (schedule : Nat → Nat) (n : Nat) (workers : List (List ι))
    (hn : workers.flatten.length = n) :
    (turns schedule n workers).Perm workers.flatten := by
  induction n generalizing workers with
  | zero =>
      rw [List.length_eq_zero_iff.mp hn]
      exact .refl _
  | succ n ih =>
      rw [← flatten_busy workers] at hn ⊢
      rw [turns]
      generalize hbusy : workers.filter (fun jobs => !jobs.isEmpty) = busy at hn ⊢
      have hpos : 0 < busy.length := by
        apply Nat.pos_of_ne_zero
        intro hzero
        rw [List.length_eq_zero_iff.mp hzero] at hn
        cases hn
      have hlt := Nat.mod_lt (schedule n) hpos
      cases hjobs : busy[schedule n % busy.length]? with
      | none => exact absurd hlt (Nat.not_lt.mpr (List.getElem?_eq_none_iff.mp hjobs))
      | some jobs =>
          cases jobs with
          | nil =>
              have hmem := List.mem_of_getElem? hjobs
              rw [← hbusy, List.mem_filter] at hmem
              cases hmem.2
          | cons job jobs =>
              have hperm := flatten_set_perm hjobs
              refine ((ih _ ?_).cons job).trans hperm
              have hlen := hperm.length_eq
              rw [hn, List.length_cons] at hlen
              exact Nat.succ.inj hlen

/-- Whatever the schedule, all jobs are done. -/
theorem order_perm (schedule : Nat → Nat) (workers : List (List ι)) :
    (order schedule workers).Perm workers.flatten :=
  turns_perm schedule _ workers rfl

end Turns

/-! ### Filling slots -/

section Fill

variable {ε α : Type} {f : Nat → Except ε α}

/-- A job: compute what belongs into a slot and put it there. -/
def fill (f : Nat → Except ε α) (slots : List α) (i : Nat) : Except ε (List α) := do
  let a ← f i
  pure (slots.set i a)

theorem foldlM_fill {g : Nat → α} (jobs : List Nat) (hf : ∀ i ∈ jobs, f i = .ok (g i)) (slots : List α) :
    ∃ filled, jobs.foldlM (fill f) slots = .ok filled ∧ filled.length = slots.length ∧
      ∀ i < slots.length, filled[i]? = if i ∈ jobs then some (g i) else slots[i]? := by
  induction jobs generalizing slots with
  | nil => exact ⟨slots, rfl, rfl, fun i _ => (if_neg List.not_mem_nil).symm⟩
  | cons job jobs ih =>
      obtain ⟨hjob, hjobs⟩ := List.forall_mem_cons.mp hf
      obtain ⟨filled, hfill, hlength, hslots⟩ := ih hjobs (slots.set job (g job))
      rw [List.length_set] at hlength hslots
      refine ⟨filled, ?_, hlength, fun i hi => ?_⟩
      · rw [List.foldlM_cons, fill, hjob]
        exact hfill
      · rw [hslots i hi]
        by_cases hmem : i ∈ jobs
        · rw [if_pos hmem, if_pos (List.mem_cons_of_mem job hmem)]
        · rw [if_neg hmem]
          by_cases heq : i = job
          · subst heq
            rw [if_pos List.mem_cons_self, List.getElem?_set_self hi]
          · have hout : i ∉ job :: jobs := fun h => (List.mem_cons.mp h).elim heq hmem
            rw [if_neg hout, List.getElem?_set_ne (Ne.symm heq)]

/-- Jobs that fill every slot leave nothing of what was there. -/
theorem foldlM_fill_all {g : Nat → α} {jobs : List Nat} (slots : List α)
    (hjobs : jobs.Perm (List.range slots.length))
    (hf : ∀ i < slots.length, f i = .ok (g i)) :
    jobs.foldlM (fill f) slots = .ok ((List.range slots.length).map g) := by
  have hmem : ∀ i, i ∈ jobs ↔ i < slots.length := fun i => hjobs.mem_iff.trans List.mem_range
  obtain ⟨filled, hfill, hlength, hslots⟩ := foldlM_fill jobs (fun i hi => hf i ((hmem i).mp hi)) slots
  rw [hfill]
  congr 1
  apply List.ext_getElem?
  intro i
  by_cases hi : i < slots.length
  · rw [hslots i hi, if_pos ((hmem i).mpr hi), List.getElem?_map, List.getElem?_range hi]
    rfl
  · rw [List.getElem?_eq_none (by omega), List.getElem?_eq_none (by simp; omega)]

end Fill

end Workers
