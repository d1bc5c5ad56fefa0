import ToyVdb.Store.Model

/-!
# What an operation does to the store

`Applied` lists everything `apply` can do, one case per path of the source, with its guard and its exact
post-state. Every later fact about the store is a case analysis over it.

The representation invariant comes in two parts. `Ids` is about the slots: the parallel arrays are as
long as each other, the two id maps are inverse to each other, and the counter counts. It survives every
operation whatever the vectors look like. `Wf` adds that the arena is exactly as long as its slots, which
needs the vectors to be shorter than `2^32`, since their length is compared in 32 bits.
-/

namespace ToyVdb

namespace VectorStore

variable {s : VectorStore}

/-! ### The cases -/

inductive Applied (s : VectorStore) (op : Op) : Except Error (Option Nat) → VectorStore → Prop
  | rejected (hop : op.type = .insert ∨ op.type = .update ∧ s.resolve op.extId ≠ none)
      (hdim : UInt32.ofNat op.vec.length ≠ s.dim) :
      Applied s op (.error (.invalidArgument "VectorStore: vector dimensionality mismatch")) s
  | absent (hop : op.type ≠ .insert) (hid : s.resolve op.extId = none) : Applied s op (.ok none) s
  | appended (hop : op.type = .insert) (hdim : UInt32.ofNat op.vec.length = s.dim)
      (hid : s.extToInt.lookup op.extId = none) :
      Applied s op (.ok (some s.slotCount)) (s.appendSlot op.extId op.vec (op.metadata.getD ∅))
  | overwritten (id : Nat) (hop : op.type = .insert) (hdim : UInt32.ofNat op.vec.length = s.dim)
      (hid : s.extToInt.lookup op.extId = some id) (hlive : s.isLive id = true) :
      Applied s op (.ok (some id)) (s.writeSlot id op.vec (some (op.metadata.getD ∅)))
  | revived (id : Nat) (hop : op.type = .insert) (hdim : UInt32.ofNat op.vec.length = s.dim)
      (hid : s.extToInt.lookup op.extId = some id) (hlive : s.isLive id = false) :
      Applied s op (.ok (some id)) ((s.writeSlot id op.vec (some (op.metadata.getD ∅))).reviveSlot id)
  | updated (id : Nat) (hop : op.type = .update) (hdim : UInt32.ofNat op.vec.length = s.dim)
      (hid : s.extToInt.lookup op.extId = some id) (hlive : s.isLive id = true) :
      Applied s op (.ok (some id)) (s.writeSlot id op.vec op.metadata)
  | tombstoned (id : Nat) (hop : op.type = .delete)
      (hid : s.extToInt.lookup op.extId = some id) (hlive : s.isLive id = true) :
      Applied s op (.ok (some id)) (s.tombstoneSlot id)

theorem resolve_eq_some_iff {x : Bytes} {id : Nat} :
    s.resolve x = some id ↔ s.extToInt.lookup x = some id ∧ s.isLive id = true := by
  unfold resolve
  cases hlookup : s.extToInt.lookup x with
  | none => simp
  | some id' =>
      by_cases hlive : s.isLive id' = true
      · simp only [hlive, if_true, Option.some.injEq]
        constructor
        · rintro rfl
          exact ⟨rfl, hlive⟩
        · exact fun h => h.1
      · simp only [hlive]
        constructor
        · intro h
          cases h
        · rintro ⟨h, hlive'⟩
          exact absurd (Option.some.inj h ▸ hlive') hlive

theorem resolve_eq_none_iff {x : Bytes} :
    s.resolve x = none ↔ ∀ id, s.extToInt.lookup x = some id → s.isLive id = false := by
  rw [Option.eq_none_iff_forall_not_mem]
  constructor
  · intro h id hid
    by_contra hlive
    exact h id (resolve_eq_some_iff.mpr ⟨hid, Bool.eq_true_of_not_eq_false hlive⟩)
  · intro h id hid
    obtain ⟨hlookup, hlive⟩ := resolve_eq_some_iff.mp hid
    rw [h id hlookup] at hlive
    cases hlive

theorem validateDim_ok {vec : Vec} (h : UInt32.ofNat vec.length = s.dim) : s.validateDim vec = .ok () :=
  if_neg (not_not.mpr h)

theorem validateDim_error {vec : Vec} (h : UInt32.ofNat vec.length ≠ s.dim) :
    s.validateDim vec = .error (.invalidArgument "VectorStore: vector dimensionality mismatch") :=
  if_pos h

theorem apply_applied (s : VectorStore) (op : Op) : s.Applied op (s.apply op).1 (s.apply op).2 := by
  unfold apply
  cases hop : op.type with
  | insert =>
      by_cases hdim : UInt32.ofNat op.vec.length = s.dim
      · cases hid : s.extToInt.lookup op.extId with
        | none =>
            simp only [doInsert, validateDim_ok hdim, hid]
            exact .appended hop hdim hid
        | some id =>
            have hsame : (s.writeSlot id op.vec (some (op.metadata.getD ∅))).isLive id = s.isLive id := rfl
            cases hlive : s.isLive id with
            | true =>
                simp only [doInsert, validateDim_ok hdim, hid, hsame, hlive, if_true]
                exact .overwritten id hop hdim hid hlive
            | false =>
                simp only [doInsert, validateDim_ok hdim, hid, hsame, hlive]
                exact .revived id hop hdim hid hlive
      · simp only [doInsert, validateDim_error hdim]
        exact .rejected (.inl hop) hdim
  | update =>
      cases hid : s.resolve op.extId with
      | none =>
          simp only [doUpdate, hid]
          exact .absent (by rw [hop]; decide) hid
      | some id =>
          by_cases hdim : UInt32.ofNat op.vec.length = s.dim
          · simp only [doUpdate, hid, validateDim_ok hdim]
            obtain ⟨hlookup, hlive⟩ := resolve_eq_some_iff.mp hid
            exact .updated id hop hdim hlookup hlive
          · simp only [doUpdate, hid, validateDim_error hdim]
            exact .rejected (.inr ⟨hop, by rw [hid]; exact Option.some_ne_none id⟩) hdim
  | delete =>
      cases hid : s.resolve op.extId with
      | none =>
          simp only [doErase, hid]
          exact .absent (by rw [hop]; decide) hid
      | some id =>
          simp only [doErase, hid]
          obtain ⟨hlookup, hlive⟩ := resolve_eq_some_iff.mp hid
          exact .tombstoned id hop hlookup hlive

theorem Applied.dim_eq {op : Op} {r : Except Error (Option Nat)} {s' : VectorStore} (h : s.Applied op r s') :
    s'.dim = s.dim := by
  cases h <;> rfl

theorem Applied.of_error {op : Op} {err : Error} {s' : VectorStore} (h : s.Applied op (.error err) s') :
    op.type ≠ .delete ∧ UInt32.ofNat op.vec.length ≠ s.dim := by
  cases h with
  | rejected hop hdim =>
      refine ⟨?_, hdim⟩
      rcases hop with hop | hop
      · rw [hop]; decide
      · rw [hop.1]; decide

/-! ### Liveness after each update -/

@[simp] theorem slotCount_appendSlot (x : Bytes) (vec : Vec) (m : Metadata) :
    (s.appendSlot x vec m).slotCount = s.slotCount + 1 := by
  simp [slotCount, appendSlot]

theorem isLive_reviveSlot {id : Nat} (h : id < s.live.length) (j : Nat) :
    (s.reviveSlot id).isLive j = if j = id then true else s.isLive j := by
  simp only [isLive, reviveSlot, List.getD_eq_getElem?_getD, List.getElem?_set]
  by_cases hj : j = id
  · subst j
    simp [h]
  · simp [hj, Ne.symm hj]

theorem isLive_tombstoneSlot {id : Nat} (j : Nat) :
    (s.tombstoneSlot id).isLive j = if j = id then false else s.isLive j := by
  simp only [isLive, tombstoneSlot, List.getD_eq_getElem?_getD, List.getElem?_set]
  by_cases hj : j = id
  · subst j
    by_cases h : id < s.live.length <;> simp [h]
  · simp [hj, Ne.symm hj]

theorem isLive_appendSlot (h : s.live.length = s.slotCount) (x : Bytes) (vec : Vec) (m : Metadata)
    (j : Nat) :
    (s.appendSlot x vec m).isLive j = if j = s.slotCount then true else s.isLive j := by
  simp only [isLive, appendSlot, List.getD_eq_getElem?_getD]
  rcases Nat.lt_trichotomy j s.live.length with hlt | heq | hgt
  · rw [List.getElem?_append_left hlt, if_neg (by omega)]
  · rw [if_pos (heq.trans h), heq, List.getElem?_concat_length]
    rfl
  · have hbeyond : (s.live ++ [true])[j]? = none := by
      rw [List.getElem?_eq_none_iff, List.length_append, List.length_singleton]
      omega
    rw [if_neg (by omega), hbeyond, List.getElem?_eq_none (by omega)]

/-! ### The slot invariant -/

structure Ids (s : VectorStore) : Prop where
  live_length : s.live.length = s.slotCount
  metas_length : s.metas.length = s.slotCount
  arena_le : s.slotCount * s.dim.toNat ≤ s.arena.length
  nodup : s.extIds.Nodup
  lookup_iff : ∀ x id, s.extToInt.lookup x = some id ↔ s.extIds[id]? = some x
  count : s.liveCount = s.live.count true

theorem ids_empty (dim : UInt32) : Ids { dim := dim } where
  live_length := rfl
  metas_length := rfl
  arena_le := by simp [slotCount]
  nodup := List.nodup_nil
  lookup_iff x id := by simp
  count := rfl

theorem Ids.lt_of_lookup (h : s.Ids) {x : Bytes} {id : Nat} (hid : s.extToInt.lookup x = some id) :
    id < s.slotCount :=
  (List.getElem?_eq_some_iff.mp ((h.lookup_iff x id).mp hid)).1

theorem Ids.lt_of_isLive (h : s.Ids) {id : Nat} (hlive : s.isLive id = true) : id < s.slotCount := by
  rw [← h.live_length]
  by_contra hge
  rw [isLive, List.getD_eq_getElem?_getD, List.getElem?_eq_none (by omega)] at hlive
  cases hlive

theorem Ids.isLive_slotCount (h : s.Ids) : s.isLive s.slotCount = false := by
  rw [Bool.eq_false_iff]
  exact fun hlive => Nat.lt_irrefl _ (h.lt_of_isLive hlive)

theorem Ids.isLive_eq_getElem (h : s.Ids) {id : Nat} (hid : id < s.slotCount) :
    s.live[id]? = some (s.isLive id) := by
  have hlt : id < s.live.length := h.live_length ▸ hid
  simp [isLive, hlt]

theorem toNat_le_of_ofNat_eq {n : Nat} {d : UInt32} (h : UInt32.ofNat n = d) : d.toNat ≤ n := by
  rw [← h, UInt32.toNat_ofNat']
  exact Nat.mod_le _ _

theorem Ids.writeSlot (h : s.Ids) {id : Nat} (hid : id < s.slotCount) (vec : Vec)
    (m? : Option Metadata) : (s.writeSlot id vec m?).Ids where
  live_length := h.live_length
  metas_length := by
    cases m? with
    | none => exact h.metas_length
    | some m => exact (List.length_set ..).trans h.metas_length
  arena_le := by
    have hoffset : id * s.dim.toNat ≤ s.arena.length :=
      (Nat.mul_le_mul_right _ (Nat.le_of_lt hid)).trans h.arena_le
    exact h.arena_le.trans (Arena.length_le_length_copyTo _ _ _ hoffset)
  nodup := h.nodup
  lookup_iff := h.lookup_iff
  count := h.count

theorem Ids.reviveSlot (h : s.Ids) {id : Nat} (hid : id < s.slotCount)
    (hdead : s.isLive id = false) : (s.reviveSlot id).Ids where
  live_length := (List.length_set ..).trans h.live_length
  metas_length := h.metas_length
  arena_le := h.arena_le
  nodup := h.nodup
  lookup_iff := h.lookup_iff
  count := by
    have hlt : id < s.live.length := h.live_length ▸ hid
    have hget : s.live[id] = false := by simpa [isLive, hlt] using hdead
    change s.liveCount + 1 = (s.live.set id true).count true
    rw [List.count_set hlt, hget, h.count]
    simp

theorem Ids.tombstoneSlot (h : s.Ids) {id : Nat} (hlive : s.isLive id = true) :
    (s.tombstoneSlot id).Ids where
  live_length := (List.length_set ..).trans h.live_length
  metas_length := h.metas_length
  arena_le := h.arena_le
  nodup := h.nodup
  lookup_iff := h.lookup_iff
  count := by
    have hlt : id < s.live.length := h.live_length ▸ h.lt_of_isLive hlive
    have hget : s.live[id] = true := by simpa [isLive, hlt] using hlive
    change s.liveCount - 1 = (s.live.set id false).count true
    rw [List.count_set hlt, hget, h.count]
    simp

theorem lookup_appendSlot_iff (h : s.Ids) {x : Bytes} (hnew : s.extToInt.lookup x = none) (y : Bytes)
    (id : Nat) :
    (s.extToInt.insert x s.slotCount).lookup y = some id ↔ (s.extIds ++ [x])[id]? = some y := by
  have hfresh : x ∉ s.extIds := by
    intro hmem
    obtain ⟨i, hi, hget⟩ := List.getElem_of_mem hmem
    have hlookup := (h.lookup_iff x i).mpr (List.getElem?_eq_some_iff.mpr ⟨hi, hget⟩)
    rw [hnew] at hlookup
    cases hlookup
  by_cases hy : y = x
  · subst y
    rw [Finmap.lookup_insert, Option.some.injEq]
    constructor
    · rintro rfl
      exact List.getElem?_concat_length
    · intro hget
      rcases Nat.lt_trichotomy id s.extIds.length with hlt | heq | hgt
      · rw [List.getElem?_append_left hlt] at hget
        exact absurd (List.mem_of_getElem? hget) hfresh
      · exact heq.symm
      · rw [List.getElem?_eq_none (by simp; omega)] at hget
        cases hget
  · rw [Finmap.lookup_insert_of_ne _ hy, h.lookup_iff]
    rcases Nat.lt_trichotomy id s.extIds.length with hlt | heq | hgt
    · rw [List.getElem?_append_left hlt]
    · rw [heq, List.getElem?_concat_length, List.getElem?_eq_none (Nat.le_refl _)]
      simp [Ne.symm hy]
    · rw [List.getElem?_eq_none (by omega), List.getElem?_eq_none (by simp; omega)]

theorem Ids.appendSlot (h : s.Ids) {x : Bytes} (hnew : s.extToInt.lookup x = none) {vec : Vec}
    (hvec : s.dim.toNat ≤ vec.length) (m : Metadata) : (s.appendSlot x vec m).Ids where
  live_length := by
    rw [slotCount_appendSlot, ← h.live_length]
    exact List.length_append
  metas_length := by
    rw [slotCount_appendSlot, ← h.metas_length]
    exact List.length_append
  arena_le := by
    have hle := h.arena_le
    rw [slotCount_appendSlot]
    change (s.slotCount + 1) * s.dim.toNat ≤ (s.arena ++ vec).length
    rw [List.length_append, Nat.add_mul]
    omega
  nodup := by
    change (s.extIds ++ [x]).Nodup
    rw [List.nodup_append]
    refine ⟨h.nodup, List.nodup_singleton x, fun y hy z hz => ?_⟩
    rw [List.mem_singleton] at hz
    subst z
    rintro rfl
    obtain ⟨i, hi, hget⟩ := List.getElem_of_mem hy
    have hlookup := (h.lookup_iff y i).mpr (List.getElem?_eq_some_iff.mpr ⟨hi, hget⟩)
    rw [hnew] at hlookup
    cases hlookup
  lookup_iff := lookup_appendSlot_iff h hnew
  count := by
    change s.liveCount + 1 = (s.live ++ [true]).count true
    rw [List.count_append, h.count]
    rfl

theorem Ids.applied (h : s.Ids) {op : Op} {r : Except Error (Option Nat)} {s' : VectorStore}
    (happlied : s.Applied op r s') : s'.Ids := by
  cases happlied with
  | rejected => exact h
  | absent => exact h
  | appended _ hdim hid => exact h.appendSlot hid (toNat_le_of_ofNat_eq hdim) _
  | overwritten id _ _ hid _ => exact h.writeSlot (h.lt_of_lookup hid) _ _
  | revived id _ _ hid hlive =>
      exact (h.writeSlot (h.lt_of_lookup hid) _ _).reviveSlot (h.lt_of_lookup hid) hlive
  | updated id _ _ hid _ => exact h.writeSlot (h.lt_of_lookup hid) _ _
  | tombstoned id _ _ hlive => exact h.tombstoneSlot hlive

/-! ### The arena -/

structure Wf (s : VectorStore) : Prop extends s.Ids where
  arena_length : s.arena.length = s.slotCount * s.dim.toNat

theorem wf_empty (dim : UInt32) : Wf { dim := dim } where
  toIds := ids_empty dim
  arena_length := by simp [slotCount]

theorem toNat_eq_of_ofNat_eq {n : Nat} {d : UInt32} (hn : n < 2 ^ 32) (h : UInt32.ofNat n = d) :
    n = d.toNat := by
  rw [← h, UInt32.toNat_ofNat', Nat.mod_eq_of_lt hn]

theorem Wf.row_le (h : s.Wf) {id : Nat} (hid : id < s.slotCount) :
    (id + 1) * s.dim.toNat ≤ s.arena.length := by
  rw [h.arena_length]
  exact Nat.mul_le_mul_right _ hid

theorem Wf.writeSlot (h : s.Wf) {id : Nat} (hid : id < s.slotCount) {vec : Vec}
    (hvec : vec.length = s.dim.toNat) (m? : Option Metadata) : (s.writeSlot id vec m?).Wf where
  toIds := h.toIds.writeSlot hid vec m?
  arena_length := by
    have hrow := h.row_le hid
    rw [Nat.add_mul, Nat.one_mul] at hrow
    exact (Arena.length_copyTo (by omega)).trans h.arena_length

theorem Wf.appendSlot (h : s.Wf) {x : Bytes} (hnew : s.extToInt.lookup x = none) {vec : Vec}
    (hvec : vec.length = s.dim.toNat) (m : Metadata) : (s.appendSlot x vec m).Wf where
  toIds := h.toIds.appendSlot hnew (by omega) m
  arena_length := by
    rw [slotCount_appendSlot]
    change (s.arena ++ vec).length = (s.slotCount + 1) * s.dim.toNat
    rw [List.length_append, h.arena_length, hvec, Nat.add_mul, Nat.one_mul]

theorem Wf.applied (h : s.Wf) {op : Op} {r : Except Error (Option Nat)} {s' : VectorStore}
    (hlen : op.vec.length < 2 ^ 32) (happlied : s.Applied op r s') : s'.Wf := by
  cases happlied with
  | rejected => exact h
  | absent => exact h
  | appended _ hdim hid => exact h.appendSlot hid (toNat_eq_of_ofNat_eq hlen hdim) _
  | overwritten id _ hdim hid _ => exact h.writeSlot (h.lt_of_lookup hid) (toNat_eq_of_ofNat_eq hlen hdim) _
  | revived id _ hdim hid hlive =>
      have hwritten := h.writeSlot (h.lt_of_lookup hid) (toNat_eq_of_ofNat_eq hlen hdim)
        (some (op.metadata.getD ∅))
      exact ⟨hwritten.toIds.reviveSlot (h.lt_of_lookup hid) hlive, hwritten.arena_length⟩
  | updated id _ hdim hid _ => exact h.writeSlot (h.lt_of_lookup hid) (toNat_eq_of_ofNat_eq hlen hdim) _
  | tombstoned id _ _ hlive => exact ⟨h.toIds.tombstoneSlot hlive, h.arena_length⟩

end VectorStore

end ToyVdb
