import ToyVdb.Store.Refinement

/-!
# Runs of the store

The store under an arbitrary sequence of `apply` calls, some of which may throw. After every call the
representation invariant holds and what can be read back is the abstract map the calls so far describe,
and every single call changes what it should and nothing else.
-/

namespace ToyVdb

namespace VectorStore

variable {s s' : VectorStore} {op : Op} {r : Except Error (Option Nat)}

/-- A call that throws ends there; the next call finds the state it left. -/
def run (s : VectorStore) (ops : List Op) : VectorStore := ops.foldl (fun s op => (s.apply op).2) s

theorem run_concat (s : VectorStore) (ops : List Op) (op : Op) :
    s.run (ops ++ [op]) = ((s.run ops).apply op).2 := by
  rw [run, List.foldl_append]
  rfl

/-- The call returned an id, that is, it did something. -/
def effective : Except Error (Option Nat) → Bool
  | .ok (some _) => true
  | _ => false

/-- The last op on an external id that did something. -/
def lastEffective (x : Bytes) : VectorStore → List Op → Option Op
  | _, [] => none
  | s, op :: ops =>
    (lastEffective x (s.apply op).2 ops).or
      (if op.extId = x ∧ effective (s.apply op).1 = true then some op else none)

theorem lastEffective_concat (x : Bytes) (s : VectorStore) (ops : List Op) (op : Op) :
    lastEffective x s (ops ++ [op]) =
      (if op.extId = x ∧ effective ((s.run ops).apply op).1 = true then some op else none).or
        (lastEffective x s ops) := by
  induction ops generalizing s with
  | nil =>
      rw [List.nil_append, lastEffective, lastEffective, lastEffective, Option.none_or, Option.or_none]
      rfl
  | cons op' ops ih =>
      rw [List.cons_append, lastEffective, lastEffective, ih, Option.or_assoc]
      rfl

/-! ### One call -/

theorem Applied.eq_of_not_effective (h : s.Applied op r s') (hr : effective r = false) : s' = s := by
  cases h with
  | rejected => rfl
  | absent => rfl
  | _ => cases hr

theorem Applied.eq_of_error {err : Error} (h : s.Applied op (.error err) s') : s' = s :=
  h.eq_of_not_effective rfl

theorem Applied.absent_eq (h : s.Applied op r s') (hop : op.type ≠ .insert)
    (hid : s.resolve op.extId = none) :
    r = .ok none ∧ s' = s := by
  rw [resolve_eq_none_iff] at hid
  cases h with
  | rejected hop' => exact absurd (resolve_eq_none_iff.mpr hid) (hop'.resolve_left hop).2
  | absent => exact ⟨rfl, rfl⟩
  | appended hop' => exact absurd hop' hop
  | overwritten _ hop' => exact absurd hop' hop
  | revived _ hop' => exact absurd hop' hop
  | updated id _ _ hlookup hlive => exact absurd hlive (by rw [hid id hlookup]; decide)
  | tombstoned id _ hlookup hlive => exact absurd hlive (by rw [hid id hlookup]; decide)

theorem Applied.lookup_returned {id : Nat} (h : s.Applied op (.ok (some id)) s') :
    s'.extToInt.lookup op.extId = some id := by
  cases h with
  | appended => exact Finmap.lookup_insert _
  | overwritten _ _ _ hid => exact hid
  | revived _ _ _ hid => exact hid
  | updated _ _ _ hid => exact hid
  | tombstoned _ _ hid => exact hid

theorem Applied.lookup_stable (h : s.Applied op r s') {y : Bytes} {id : Nat}
    (hid : s.extToInt.lookup y = some id) : s'.extToInt.lookup y = some id := by
  cases h with
  | appended _ _ hnew =>
      have hne : y ≠ op.extId := by
        rintro rfl
        rw [hnew] at hid
        cases hid
      exact (Finmap.lookup_insert_of_ne _ hne).trans hid
  | _ => exact hid

theorem Applied.mem_extIds_iff (h : s.Applied op r s') (hids : s.Ids) (x : Bytes) :
    x ∈ s'.extIds ↔ x ∈ s.extIds ∨
      (op.extId = x ∧ op.type = .insert ∧ UInt32.ofNat op.vec.length = s.dim) := by
  have hmem : ∀ {y id}, s.extToInt.lookup y = some id → y ∈ s.extIds := fun hid =>
    List.mem_of_getElem? ((hids.lookup_iff _ _).mp hid)
  cases h with
  | rejected _ hdim => exact ⟨.inl, fun h => h.resolve_right fun h' => hdim h'.2.2⟩
  | absent hop => exact ⟨.inl, fun h => h.resolve_right fun h' => hop h'.2.1⟩
  | appended hop hdim =>
      change x ∈ s.extIds ++ [op.extId] ↔ _
      rw [List.mem_append, List.mem_singleton]
      exact or_congr_right ⟨fun hx => ⟨hx.symm, hop, hdim⟩, fun h => h.1.symm⟩
  | overwritten _ _ _ hid => exact ⟨.inl, fun h => h.elim (fun hx => hx) fun h' => h'.1 ▸ hmem hid⟩
  | revived _ _ _ hid => exact ⟨.inl, fun h => h.elim (fun hx => hx) fun h' => h'.1 ▸ hmem hid⟩
  | updated _ hop => exact ⟨.inl, fun h => h.resolve_right fun h' => by rw [hop] at h'; cases h'.2.1⟩
  | tombstoned _ hop => exact ⟨.inl, fun h => h.resolve_right fun h' => by rw [hop] at h'; cases h'.2.1⟩

theorem Applied.resolve_self (h : s.Applied op r s') (hwf : s.Wf) (hlen : op.vec.length < 2 ^ 32)
    (hr : effective r = true) : (s'.resolve op.extId).isSome ↔ op.type ≠ .delete := by
  have hself := h.content_self hwf hlen
  rw [← Option.isSome_map (f := fun id => Entry.mk (s'.get id) ((s'.metadata id).getD ∅))]
  change (s'.content op.extId).isSome ↔ _
  rw [hself]
  cases h with
  | rejected => cases hr
  | absent => cases hr
  | appended hop hdim => simp [Op.effect_insert hop ((ofNat_length_eq_iff hlen).mp hdim), hop]
  | overwritten _ hop hdim => simp [Op.effect_insert hop ((ofNat_length_eq_iff hlen).mp hdim), hop]
  | revived _ hop hdim => simp [Op.effect_insert hop ((ofNat_length_eq_iff hlen).mp hdim), hop]
  | updated _ hop hdim hid hlive =>
      simp [Op.effect_update hop ((ofNat_length_eq_iff hlen).mp hdim), content_self_of_slot hid hlive, hop]
  | tombstoned _ hop => simp [Op.effect_delete hop, hop]

/-! ### Whole runs -/

/-- The ops that put a slot in the store. -/
def Inserted (dim : UInt32) (ops : List Op) (x : Bytes) : Prop :=
  ∃ op ∈ ops, op.extId = x ∧ op.type = .insert ∧ op.Fits dim

/-- The abstract map after a sequence of ops. -/
def described (dim : UInt32) (ops : List Op) : Bytes → Option Entry :=
  KeyedLog.replay (ops.map (Op.write dim)) fun _ => none

theorem described_concat (dim : UInt32) (ops : List Op) (op : Op) :
    described dim (ops ++ [op]) = KeyedLog.write (described dim ops) (op.write dim) := by
  rw [described, List.map_append, List.map_singleton, KeyedLog.replay_concat]
  rfl

/-- The store holds what the ops so far describe. -/
structure Represents (dim : UInt32) (ops : List Op) (s : VectorStore) : Prop extends s.Wf where
  dim_eq : s.dim = dim
  mem_extIds_iff : ∀ x, x ∈ s.extIds ↔ Inserted dim ops x
  content_eq : s.content = described dim ops
  resolve_iff : ∀ x,
    (s.resolve x).isSome ↔ ∃ op, lastEffective x { dim := dim } ops = some op ∧ op.type ≠ .delete

theorem represents_empty (dim : UInt32) : Represents dim [] { dim := dim } where
  toWf := wf_empty dim
  dim_eq := rfl
  mem_extIds_iff x := by simp [Inserted]
  content_eq := funext (content_empty dim)
  resolve_iff x := by simp [lastEffective, resolve]

theorem Represents.apply {dim : UInt32} {ops : List Op} (h : Represents dim ops (run { dim := dim } ops))
    (hlen : op.vec.length < 2 ^ 32) : Represents dim (ops ++ [op]) (run { dim := dim } (ops ++ [op])) := by
  have happlied := apply_applied (run { dim := dim } ops) op
  rw [run_concat]
  refine ⟨h.toWf.applied hlen happlied, happlied.dim_eq.trans h.dim_eq, fun x => ?_, ?_, fun x => ?_⟩
  · rw [happlied.mem_extIds_iff h.toIds, h.mem_extIds_iff, h.dim_eq, ofNat_length_eq_iff hlen]
    simp only [Inserted, List.mem_append, List.mem_singleton, or_and_right, exists_or, exists_eq_left]
    rfl
  · rw [happlied.content_eq h.toWf hlen, h.content_eq, h.dim_eq, described_concat]
  · rw [lastEffective_concat]
    by_cases hx : op.extId = x ∧ effective ((run { dim := dim } ops).apply op).1 = true
    · obtain ⟨rfl, hr⟩ := hx
      rw [if_pos ⟨rfl, hr⟩, happlied.resolve_self h.toWf hlen hr]
      simp
    · -- the op is on another id, or it did nothing
      have hsame : ((run { dim := dim } ops).apply op).2.resolve x = (run { dim := dim } ops).resolve x := by
        by_cases hne : x = op.extId
        · have hr : effective ((run { dim := dim } ops).apply op).1 = false :=
            Bool.eq_false_of_not_eq_true fun hr => hx ⟨hne.symm, hr⟩
          rw [happlied.eq_of_not_effective hr]
        · exact (happlied.sameAt h.toWf hlen hne).resolve_eq
      rw [if_neg hx, hsame, Option.none_or]
      exact h.resolve_iff x

theorem represents_run (dim : UInt32) (ops : List Op) (hlen : ∀ op ∈ ops, op.vec.length < 2 ^ 32) :
    Represents dim ops (run { dim := dim } ops) := by
  induction ops using List.reverseRecOn with
  | nil => exact represents_empty dim
  | append_singleton ops op ih =>
      rw [List.forall_mem_append, List.forall_mem_singleton] at hlen
      exact (ih hlen.1).apply hlen.2

theorem Represents.slotCount_le {dim : UInt32} {ops : List Op} (h : Represents dim ops s) :
    s.slotCount ≤ (ops.map Op.extId).toFinset.card := by
  rw [slotCount, ← List.toFinset_card_of_nodup h.nodup]
  refine Finset.card_le_card fun x hx => ?_
  obtain ⟨op, hmem, rfl, -⟩ := (h.mem_extIds_iff x).mp (List.mem_toFinset.mp hx)
  exact List.mem_toFinset.mpr (List.mem_map_of_mem hmem)

/-- What one call may do to a store. -/
structure CallSpec (s : VectorStore) (op : Op) (r : Except Error (Option Nat)) (s' : VectorStore) : Prop where
  others : ∀ y, y ≠ op.extId → SameAt s s' y
  slot_stable : ∀ y id, s.extToInt.lookup y = some id → s'.extToInt.lookup y = some id
  returned : ∀ id, r = .ok (some id) → s'.extToInt.lookup op.extId = some id
  absent : op.type ≠ .insert → s.resolve op.extId = none → r = .ok none ∧ s' = s
  thrown : ∀ err, r = .error err → s' = s

theorem Applied.callSpec (h : s.Applied op r s') (hwf : s.Wf) (hlen : op.vec.length < 2 ^ 32) :
    CallSpec s op r s' where
  others _ hne := h.sameAt hwf hlen hne
  slot_stable _ _ hid := h.lookup_stable hid
  returned _ hr := (hr ▸ h).lookup_returned
  absent hop hid := h.absent_eq hop hid
  thrown _ hr := (hr ▸ h).eq_of_error

theorem Represents.metadata_eq {dim : UInt32} {ops : List Op} (h : Represents dim ops s) {x : Bytes}
    {id : Nat}
    (hid : s.resolve x = some id) :
    ∃ e, described dim ops x = some e ∧ s.get id = e.vec ∧ s.metadata id = some e.metadata := by
  have hlt : id < s.metas.length := h.metas_length ▸ h.lt_of_lookup (resolve_eq_some_iff.mp hid).1
  refine ⟨_, h.content_eq ▸ content_of_resolve hid, rfl, ?_⟩
  rw [metadata, List.getElem?_eq_getElem hlt]
  rfl

/-- The store refines the abstract map: after every call of a run the representation invariant holds,
`resolve`, `get` and `metadata` read the map back, no internal id is the sentinel, and every call does
what `CallSpec` allows. -/
theorem vector_store_refines_map (dim : UInt32) (hdim : dim ≠ 0) (ops : List Op)
    (hlen : ∀ op ∈ ops, op.vec.length < 2 ^ 32) (hids : (ops.map Op.extId).toFinset.card < 2 ^ 32 - 1) :
    VectorStore.new dim = .ok { dim := dim } ∧
    (∀ done rest, ops = done ++ rest →
      Represents dim done (run { dim := dim } done) ∧ (run { dim := dim } done).slotCount < kInvalidId ∧
      ∀ x id, (run { dim := dim } done).resolve x = some id →
        ∃ e, described dim done x = some e ∧ (run { dim := dim } done).get id = e.vec ∧
          (run { dim := dim } done).metadata id = some e.metadata) ∧
    ∀ done op rest, ops = done ++ op :: rest →
      CallSpec (run { dim := dim } done) op ((run { dim := dim } done).apply op).1
        (run { dim := dim } (done ++ [op])) := by
  refine ⟨if_neg hdim, fun done rest hops => ?_, fun done op rest hops => ?_⟩
  · subst hops
    have hrep := represents_run dim done (List.forall_mem_append.mp hlen).1
    refine ⟨hrep, ?_, fun x id hid => hrep.metadata_eq hid⟩
    have hsub : (done.map Op.extId).toFinset.card ≤ ((done ++ rest).map Op.extId).toFinset.card := by
      apply Finset.card_le_card
      rw [List.map_append, List.toFinset_append]
      exact Finset.subset_union_left
    exact Nat.lt_of_le_of_lt (hrep.slotCount_le.trans hsub) hids
  · subst hops
    rw [List.forall_mem_append, List.forall_mem_cons] at hlen
    rw [run_concat]
    exact (apply_applied _ op).callSpec (represents_run dim done hlen.1).toWf hlen.2.1

/-- An insert, an update that keeps the metadata, an insert of the wrong length and a delete. -/
def sampleOps : List Op :=
  [⟨.insert, ascii "a", [1], none⟩, ⟨.update, ascii "a", [2], none⟩, ⟨.insert, ascii "b", [], none⟩,
    ⟨.delete, ascii "a", [], none⟩]

theorem vector_store_refines_map_sample :
    Represents 1 sampleOps (run { dim := 1 } sampleOps) ∧ (run { dim := 1 } sampleOps).slotCount = 1 :=
  ⟨((vector_store_refines_map 1 (by decide) sampleOps (by decide) (by decide)).2.1 sampleOps [] rfl).1,
    by decide⟩

end VectorStore

end ToyVdb
