import ToyVdb.Hnsw.Model

/-!
# The visited set, as a set

What the epoch stamps mean: `Has` is membership, `bump` empties the set whether or not the counter wraps,
and `testSet` answers and adds. `unvisited` counts the slots still outside, which is what bounds the
rounds of a search.
-/

namespace ToyVdb

namespace Visited

open Outcome

variable {v : Visited}

def Has (v : Visited) (id : Nat) : Prop := v.stamp[id]? = some v.cur

/-- No stamp is from a later epoch. -/
def Wf (v : Visited) : Prop := ∀ epoch ∈ v.stamp, epoch ≤ v.cur

def unvisited (v : Visited) : Nat := v.stamp.countP (· ≠ v.cur)

theorem unvisited_le (v : Visited) : v.unvisited ≤ v.stamp.length := List.countP_le_length

theorem wf_ensure (n : Nat) : (ensure {} n).Wf := by
  intro epoch hepoch
  rw [List.eq_of_mem_replicate (show epoch ∈ List.replicate (n - 0) 0 from hepoch)]
  exact Nat.le_refl _

theorem length_ensure (n : Nat) : (ensure {} n).stamp.length = n := by
  simp [ensure]

/-! ### A new epoch -/

@[simp] theorem length_bump (v : Visited) : v.bump.stamp.length = v.stamp.length := by
  unfold bump
  split_ifs
  · exact List.length_replicate
  · rfl

theorem toNat_succ_cur (h : ¬ v.cur + 1 = 0) : (v.cur + 1).toNat = v.cur.toNat + 1 := by
  have hlt := v.cur.toNat_lt
  rw [← UInt32.toNat_inj, UInt32.toNat_add] at h
  rw [UInt32.toNat_add]
  simp only [UInt32.toNat_one, UInt32.toNat_zero] at h ⊢
  omega

theorem wf_bump (h : v.Wf) : v.bump.Wf := by
  unfold bump
  split_ifs with hwrap
  · intro epoch hepoch
    rw [List.eq_of_mem_replicate hepoch]
    exact (by decide : (0 : UInt32) ≤ 1)
  · intro epoch hepoch
    have hle := UInt32.le_iff_toNat_le.mp (h epoch hepoch)
    rw [UInt32.le_iff_toNat_le, toNat_succ_cur hwrap]
    omega

theorem not_has_bump (h : v.Wf) (id : Nat) : ¬ v.bump.Has id := by
  unfold bump
  split_ifs with hwrap
  · intro hhas
    have hmem := List.mem_of_getElem? hhas
    exact absurd (List.eq_of_mem_replicate hmem) (by decide : ¬ (1 : UInt32) = 0)
  · intro hhas
    have hle := UInt32.le_iff_toNat_le.mp (h _ (List.mem_of_getElem? hhas))
    rw [toNat_succ_cur hwrap] at hle
    omega

/-! ### Testing and adding -/

/-- What `testSet` does: the answer, and the set with the slot added. -/
structure Tested (v : Visited) (id : Nat) (seen : Bool) (v' : Visited) : Prop where
  seen_iff : seen = true ↔ v.Has id
  has_iff : ∀ j, v'.Has j ↔ j = id ∨ v.Has j
  wf : v.Wf → v'.Wf
  length_eq : v'.stamp.length = v.stamp.length
  unvisited_eq : v'.unvisited + (if seen then 0 else 1) = v.unvisited

theorem tested_seen {id : Nat} (h : v.Has id) : Tested v id true v where
  seen_iff := ⟨fun _ => h, fun _ => rfl⟩
  has_iff _ := ⟨.inr, fun hj => hj.elim (fun heq => heq ▸ h) fun hj => hj⟩
  wf hwf := hwf
  length_eq := rfl
  unvisited_eq := rfl

theorem tested_new {id : Nat} {epoch : UInt32} (hget : v.stamp[id]? = some epoch) (hne : epoch ≠ v.cur) :
    Tested v id false { v with stamp := v.stamp.set id v.cur } where
  seen_iff := by
    rw [Has, hget]
    simp [hne]
  has_iff j := by
    obtain ⟨hid, -⟩ := List.getElem?_eq_some_iff.mp hget
    simp only [Has, List.getElem?_set]
    by_cases hj : id = j
    · subst hj
      simp [hid]
    · simp [hj, Ne.symm hj]
  wf hwf e he := by
    rcases List.mem_or_eq_of_mem_set he with he | he
    · exact hwf e he
    · exact he ▸ Nat.le_refl _
  length_eq := List.length_set ..
  unvisited_eq := by
    obtain ⟨hid, hget⟩ := List.getElem?_eq_some_iff.mp hget
    have hpos : 0 < v.stamp.countP (· ≠ v.cur) :=
      List.countP_pos_iff.mpr ⟨epoch, hget ▸ List.getElem_mem hid, by simpa using hne⟩
    simp only [unvisited, List.countP_set hid, hget, decide_not, decide_eq_false hne, decide_true,
      Bool.not_true,
      Bool.not_false, if_true, Bool.false_eq_true, if_false] at hpos ⊢
    omega

theorem testSet_yields {id : Nat} (h : id < v.stamp.length) :
    Yields (v.testSet id) fun r => Tested v id r.1 r.2 := by
  rw [testSet, List.getElem?_eq_getElem h]
  by_cases hcur : v.stamp[id] = v.cur
  · simp only [if_pos hcur]
    exact .ok (tested_seen (List.getElem?_eq_some_iff.mpr ⟨h, hcur⟩))
  · simp only [if_neg hcur]
    exact .ok (tested_new (List.getElem?_eq_getElem h) hcur)

theorem tested_of_testSet {id : Nat} {seen : Bool} {v' : Visited} (htest : v.testSet id = .ok (seen, v')) :
    Tested v id seen v' := by
  have hid : id < v.stamp.length := by
    by_contra hge
    rw [testSet, List.getElem?_eq_none (Nat.le_of_not_lt hge)] at htest
    cases htest
  obtain ⟨r, hr, htested⟩ := testSet_yields hid
  cases htest.symm.trans hr
  exact htested

end Visited

end ToyVdb
