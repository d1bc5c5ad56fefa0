import Mathlib.Algebra.Group.End
import Mathlib.Algebra.Group.Submonoid.Defs

/-!
# Logs of writes to a keyed state

A state is a function from keys to values, a write applies a function to the value at one key, and a log
is a list of writes. What a log does to one key depends on the value at that key only: it is the
composition of the effects the log has there.

The result a recovery needs is `replay_replay`: when all the effects lie in a submonoid of idempotent
maps, replaying a log over a state that already contains it changes nothing.
-/

namespace KeyedLog

variable {K V : Type} [DecidableEq K]

/-- Apply a function to the value at one key. -/
structure Write (K V : Type) where
  key : K
  effect : Function.End V

def write (s : K → V) (w : Write K V) : K → V := Function.update s w.key (w.effect (s w.key))

/-- Apply the writes of a log in order. -/
def replay (log : List (Write K V)) (s : K → V) : K → V := log.foldl write s

theorem replay_append (log rest : List (Write K V)) (s : K → V) :
    replay (log ++ rest) s = replay rest (replay log s) := List.foldl_append

theorem replay_concat (log : List (Write K V)) (w : Write K V) (s : K → V) :
    replay (log ++ [w]) s = write (replay log s) w := replay_append log [w] s

theorem write_self (s : K → V) (w : Write K V) : write s w w.key = w.effect (s w.key) :=
  Function.update_self ..

theorem write_of_ne (s : K → V) (w : Write K V) {k : K} (h : k ≠ w.key) : write s w k = s k :=
  Function.update_of_ne h ..

theorem replay_of_notMem {log : List (Write K V)} {k : K} (h : k ∉ log.map Write.key) (s : K → V) :
    replay log s k = s k := by
  induction log generalizing s with
  | nil => rfl
  | cons w log ih =>
      rw [List.map_cons, List.mem_cons, not_or] at h
      exact (ih h.2 (write s w)).trans (write_of_ne s w h.1)

/-- In a log with at most one write per key, a write has the last word on its key. -/
theorem replay_of_mem {log : List (Write K V)} (hnodup : (log.map Write.key).Nodup) {w : Write K V}
    (hw : w ∈ log)
    (s : K → V) : replay log s w.key = w.effect (s w.key) := by
  induction log generalizing s with
  | nil => exact absurd hw List.not_mem_nil
  | cons w' log ih =>
      obtain ⟨hout, hnodup⟩ := List.nodup_cons.mp hnodup
      rcases List.mem_cons.mp hw with rfl | hw
      · exact (replay_of_notMem hout (write s w)).trans (write_self s w)
      · have hne : w.key ≠ w'.key := fun heq => hout (heq ▸ List.mem_map_of_mem hw)
        exact (ih hnodup hw (write s w')).trans (congrArg w.effect (write_of_ne s w' hne))

/-- What a log does at a key is one map of the submonoid its effects come from. -/
theorem exists_replay_eq (S : Submonoid (Function.End V)) (log : List (Write K V))
    (h : ∀ w ∈ log, w.effect ∈ S) (k : K) :
    ∃ f ∈ S, ∀ s : K → V, replay log s k = f (s k) := by
  induction log with
  | nil => exact ⟨1, S.one_mem, fun _ => rfl⟩
  | cons w log ih =>
      obtain ⟨f, hf, hreplay⟩ := ih fun w' hw' => h w' (List.mem_cons_of_mem _ hw')
      by_cases hk : k = w.key
      · refine ⟨f * w.effect, S.mul_mem hf (h w List.mem_cons_self), fun s => ?_⟩
        subst hk
        exact (hreplay (write s w)).trans (congrArg f (write_self s w))
      · refine ⟨f, hf, fun s => ?_⟩
        exact (hreplay (write s w)).trans (congrArg f (write_of_ne s w hk))

theorem replay_replay (S : Submonoid (Function.End V)) (hidem : ∀ f ∈ S, ∀ v, f (f v) = f v)
    (log : List (Write K V)) (h : ∀ w ∈ log, w.effect ∈ S) (s : K → V) :
    replay log (replay log s) = replay log s := by
  funext k
  obtain ⟨f, hf, hreplay⟩ := exists_replay_eq S log h k
  rw [hreplay, hreplay, hidem f hf]

/-- A log over a part of its base. Where the log leads to the same state from the base and from
nothing, it does so from the first writes of the base. -/
theorem replay_take {base log : List (Write K V)} (hnodup : (base.map Write.key).Nodup) {s t : K → V}
    (hbase : replay log (replay base s) = t) (hnone : replay log s = t) (m : Nat) :
    replay log (replay (base.take m) s) = t := by
  funext k
  obtain ⟨f, -, hreplay⟩ := exists_replay_eq ⊤ log (fun _ _ => trivial) k
  by_cases hk : k ∈ (base.take m).map Write.key
  · obtain ⟨w, hw, rfl⟩ := List.mem_map.mp hk
    have htake : ((base.take m).map Write.key).Nodup := by
      rw [List.map_take]
      exact hnodup.take
    rw [hreplay, replay_of_mem htake hw, ← replay_of_mem hnodup (List.mem_of_mem_take hw), ← hreplay, hbase]
  · rw [hreplay, replay_of_notMem hk, ← hreplay, hnone]

end KeyedLog
