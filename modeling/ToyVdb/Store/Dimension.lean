import ToyVdb.Store.Invariant

/-!
# The dimension check

What `apply` promises about vectors of any length. The check is not made for an update of an id that is not
live, which does nothing whatever the vector; and it is made on 32 bits of the length, so it lets a vector
pass that is longer than the dimension by a multiple of `2^32`.
-/

namespace ToyVdb

namespace VectorStore

variable {s s' : VectorStore} {op : Op}

/-- No float outside the slot that the call returns is written. -/
def WritesOnly (s : VectorStore) (r : Except Error (Option Nat)) (s' : VectorStore) : Prop :=
  ∀ i, (∀ id, r = .ok (some id) → i < id * s.dim.toNat ∨ (id + 1) * s.dim.toNat ≤ i) →
    s'.arena[i]? = s.arena[i]?

/-- The call throws and changes nothing; or the arena fits its slots, only the target slot was written, and
the vector was of the right length. -/
def Checked (s : VectorStore) (op : Op) : Prop :=
  (∃ err, s.apply op = (.error err, s)) ∨
    ((s.apply op).2.arena.length = (s.apply op).2.slotCount * s.dim.toNat ∧
      s.WritesOnly (s.apply op).1 (s.apply op).2 ∧ op.vec.length = s.dim.toNat)

/-- The length agrees with the dimension in the bits that are compared, but not as a whole. -/
def Narrowed (s : VectorStore) (vec : Vec) : Prop :=
  vec.length % 2 ^ 32 = s.dim.toNat ∧ vec.length ≠ s.dim.toNat

theorem ofNat_eq_iff {n : Nat} {d : UInt32} : UInt32.ofNat n = d ↔ n % 2 ^ 32 = d.toNat := by
  rw [← UInt32.toNat_inj, UInt32.toNat_ofNat']

theorem writesOnly_self (s : VectorStore) (r : Except Error (Option Nat)) : s.WritesOnly r s :=
  fun _ _ => rfl

theorem Wf.writesOnly_writeSlot (h : s.Wf) {id : Nat} (hid : id < s.slotCount) {vec : Vec}
    (hvec : vec.length = s.dim.toNat) (m? : Option Metadata) :
    s.WritesOnly (.ok (some id)) (s.writeSlot id vec m?) := by
  intro i hi
  have hrow := h.row_le hid
  have hout := hi id rfl
  rw [Nat.add_mul, Nat.one_mul] at hrow hout
  exact Arena.getElem?_copyTo (by omega) (by omega)

theorem Wf.writesOnly_appendSlot (h : s.Wf) {vec : Vec} (hvec : vec.length = s.dim.toNat) (x : Bytes)
    (m : Metadata) : s.WritesOnly (.ok (some s.slotCount)) (s.appendSlot x vec m) := by
  intro i hi
  have hlen := h.arena_length
  have hout := hi s.slotCount rfl
  rw [Nat.add_mul, Nat.one_mul] at hout
  change (s.arena ++ vec)[i]? = s.arena[i]?
  rcases hout with hbefore | hbehind
  · exact List.getElem?_append_left (by omega)
  · rw [List.getElem?_eq_none (by rw [List.length_append]; omega), List.getElem?_eq_none (by omega)]

theorem Wf.writesOnly (h : s.Wf) {r : Except Error (Option Nat)} (happlied : s.Applied op r s')
    (hvec : op.vec.length = s.dim.toNat) : s.WritesOnly r s' := by
  cases happlied with
  | rejected => exact s.writesOnly_self _
  | absent => exact s.writesOnly_self _
  | appended => exact h.writesOnly_appendSlot hvec _ _
  | overwritten id _ _ hid => exact h.writesOnly_writeSlot (h.lt_of_lookup hid) hvec _
  | revived id _ _ hid => exact h.writesOnly_writeSlot (h.lt_of_lookup hid) hvec (some (op.metadata.getD ∅))
  | updated id _ _ hid => exact h.writesOnly_writeSlot (h.lt_of_lookup hid) hvec _
  | tombstoned => exact s.writesOnly_self _

/-- Exactly when the check is what it should be: the vector is of the right length, or the check is reached
and sees that it is not. -/
theorem Wf.checked_iff (h : s.Wf) (hop : op.type = .insert ∨ op.type = .update) :
    s.Checked op ↔ op.vec.length = s.dim.toNat ∨
      op.vec.length % 2 ^ 32 ≠ s.dim.toNat ∧ ¬ (op.type = .update ∧ s.resolve op.extId = none) := by
  have happlied := s.apply_applied op
  constructor
  · rintro (⟨err, herr⟩ | ⟨-, -, hvec⟩)
    · rw [herr] at happlied
      cases happlied with
      | rejected hreached hdim =>
          refine .inr ⟨fun heq => hdim (ofNat_eq_iff.mpr heq), ?_⟩
          rintro ⟨hupdate, hnone⟩
          rcases hreached with hinsert | ⟨-, hsome⟩
          · cases hinsert.symm.trans hupdate
          · exact hsome hnone
    · exact .inl hvec
  · rintro (hvec | ⟨hne, hreached⟩)
    · have hlen : op.vec.length < 2 ^ 32 := hvec ▸ s.dim.toNat_lt
      refine .inr ⟨?_, h.writesOnly happlied hvec, hvec⟩
      rw [(h.applied hlen happlied).arena_length, happlied.dim_eq]
    · have hdim : UInt32.ofNat op.vec.length ≠ s.dim := fun heq => hne (ofNat_eq_iff.mp heq)
      refine .inl ⟨.invalidArgument "VectorStore: vector dimensionality mismatch", ?_⟩
      rcases hresult : s.apply op with ⟨r, s'⟩
      rw [hresult] at happlied
      cases happlied with
      | rejected => rfl
      | absent hnot hnone =>
          rcases hop with hinsert | hupdate
          · exact absurd hinsert hnot
          · exact absurd ⟨hupdate, hnone⟩ hreached
      | appended _ heq => exact absurd heq hdim
      | overwritten _ _ heq => exact absurd heq hdim
      | revived _ _ heq => exact absurd heq hdim
      | updated _ _ heq => exact absurd heq hdim
      | tombstoned _ hdelete =>
          rcases hop with hinsert | hupdate
          · cases hinsert.symm.trans hdelete
          · cases hupdate.symm.trans hdelete

/-- A vector whose length is mistaken for the dimension is never caught. -/
theorem Wf.not_checked_of_narrowed (h : s.Wf) (hop : op.type = .insert ∨ op.type = .update)
    (hnarrowed : s.Narrowed op.vec) : ¬ s.Checked op := by
  rw [h.checked_iff hop]
  rintro (hvec | ⟨hne, -⟩)
  · exact hnarrowed.2 hvec
  · exact hne hnarrowed.1

/-- **The dimension check.** In every state of the store, an insert or an update of a vector whose length is
not mistaken for the dimension throws and changes nothing, or finds no live id to update and changes nothing,
or was given a vector of exactly the dimension, leaves an arena that fits its slots and writes the target
slot only. -/
theorem dimension_check_is_exact (s : VectorStore) (h : s.Wf) (op : Op)
    (hop : op.type = .insert ∨ op.type = .update) (hlength : ¬ s.Narrowed op.vec) :
    s.Checked op ∨
      (op.type = .update ∧ s.resolve op.extId = none ∧ s.apply op = (.ok none, s)) := by
  by_cases habsent : op.type = .update ∧ s.resolve op.extId = none
  · refine .inr ⟨habsent.1, habsent.2, ?_⟩
    rw [apply, habsent.1]
    simp only [doUpdate, habsent.2]
  · refine .inl ((h.checked_iff hop).mpr ?_)
    by_cases hvec : op.vec.length = s.dim.toNat
    · exact .inl hvec
    · exact .inr ⟨fun heq => hlength ⟨heq, hvec⟩, habsent⟩

theorem dimension_check_is_exact_sample :
    (⟨1, [], [], [], [], ∅, 0⟩ : VectorStore).Checked ⟨.insert, ascii "a", [0, 0], none⟩ := by
  have hexact := dimension_check_is_exact ⟨1, [], [], [], [], ∅, 0⟩ (wf_empty 1)
    ⟨.insert, ascii "a", [0, 0], none⟩ (.inl rfl) (fun hnarrowed => absurd hnarrowed.1 (by decide))
  exact hexact.resolve_right fun habsent => absurd habsent.1 (by decide)

/-- An update of an id that is not there is given no look at its vector. -/
theorem absent_update_is_unchecked :
    ¬ (⟨1, [], [], [], [], ∅, 0⟩ : VectorStore).Checked ⟨.update, ascii "a", [0, 0], none⟩ := by
  rintro (⟨err, herr⟩ | ⟨-, -, hvec⟩)
  · exact absurd herr (by rintro ⟨⟩)
  · exact absurd hvec (by decide)

end VectorStore

end ToyVdb
