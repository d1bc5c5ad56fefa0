import ToyVdb.Store.Invariant
import ToyVdb.Lib.KeyedLog

/-!
# The store refines a map

What the store is for: a finite map from external ids to entries, on which an op writes at one key. The
abstract semantics `Op.effect` says what the value there becomes; the rest of this module shows that the
slots, the arena and the two id maps implement exactly that, and that an op on one id leaves everything
about every other id where it was.
-/

namespace ToyVdb

/-- What the database holds for an external id. -/
structure Entry where
  vec : Vec
  metadata : Metadata
deriving DecidableEq

/-- A vector of the database's dimension. -/
def Op.Fits (dim : UInt32) (op : Op) : Prop := op.vec.length = dim.toNat

instance (dim : UInt32) (op : Op) : Decidable (op.Fits dim) :=
  inferInstanceAs (Decidable (op.vec.length = dim.toNat))

/-- The abstract semantics of an op, on the entry of its external id: `Insert` sets both parts, `Update`
sets the vector of a present entry and its metadata if it brings any, `Delete` removes. An op whose vector
has the wrong length has no effect. -/
def Op.effect (dim : UInt32) (op : Op) (e? : Option Entry) : Option Entry :=
  match op.type with
  | .insert => if op.Fits dim then some ⟨op.vec, op.metadata.getD ∅⟩ else e?
  | .update => if op.Fits dim then e?.map fun e => ⟨op.vec, op.metadata.getD e.metadata⟩ else e?
  | .delete => none

def Op.write (dim : UInt32) (op : Op) : KeyedLog.Write Bytes (Option Entry) := ⟨op.extId, op.effect dim⟩

theorem Op.effect_insert {dim : UInt32} {op : Op} (hop : op.type = .insert) (hfits : op.Fits dim)
    (e? : Option Entry) : op.effect dim e? = some ⟨op.vec, op.metadata.getD ∅⟩ := by
  rw [Op.effect, hop]
  exact if_pos hfits

theorem Op.effect_update {dim : UInt32} {op : Op} (hop : op.type = .update) (hfits : op.Fits dim)
    (e? : Option Entry) :
    op.effect dim e? = e?.map fun e => ⟨op.vec, op.metadata.getD e.metadata⟩ := by
  rw [Op.effect, hop]
  exact if_pos hfits

theorem Op.effect_delete {dim : UInt32} {op : Op} (hop : op.type = .delete) (e? : Option Entry) :
    op.effect dim e? = none := by
  rw [Op.effect, hop]

theorem Op.effect_none {dim : UInt32} {op : Op} (hop : op.type ≠ .insert) : op.effect dim none = none := by
  rw [Op.effect]
  cases htype : op.type with
  | insert => exact absurd htype hop
  | update =>
      by_cases hfits : op.Fits dim
      · exact if_pos hfits
      · exact if_neg hfits
  | delete => rfl

theorem Op.effect_of_not_fits {dim : UInt32} {op : Op} (hop : op.type ≠ .delete) (hfits : ¬ op.Fits dim)
    (e? : Option Entry) : op.effect dim e? = e? := by
  rw [Op.effect]
  cases htype : op.type with
  | insert => exact if_neg hfits
  | update => exact if_neg hfits
  | delete => exact absurd htype hop

namespace VectorStore

variable {s s' : VectorStore} {op : Op} {r : Except Error (Option Nat)}

/-- The logical content: what a caller can read back through `resolve`, `get` and `metadata`. -/
def content (s : VectorStore) (x : Bytes) : Option Entry :=
  (s.resolve x).map fun id => ⟨s.get id, (s.metadata id).getD ∅⟩

theorem content_of_resolve {x : Bytes} {id : Nat} (h : s.resolve x = some id) :
    s.content x = some ⟨s.get id, (s.metadata id).getD ∅⟩ := by
  rw [content, h]
  rfl

theorem content_eq_none_iff {x : Bytes} : s.content x = none ↔ s.resolve x = none := Option.map_eq_none_iff

theorem content_empty (dim : UInt32) (x : Bytes) : ({ dim := dim } : VectorStore).content x = none := by
  simp [content, resolve]

theorem ofNat_length_eq_iff {n : Nat} {d : UInt32} (hn : n < 2 ^ 32) : UInt32.ofNat n = d ↔ n = d.toNat := by
  constructor
  · exact toNat_eq_of_ofNat_eq hn
  · intro h
    rw [h, UInt32.ofNat_toNat]

theorem Ids.lookup_injective (h : s.Ids) {x y : Bytes} {id : Nat} (hx : s.extToInt.lookup x = some id)
    (hy : s.extToInt.lookup y = some id) : x = y := by
  have hget := (h.lookup_iff x id).mp hx
  rw [(h.lookup_iff y id).mp hy] at hget
  exact (Option.some.inj hget).symm

/-! ### Other ids -/

/-- Everything the store holds for an external id is the same in both states. -/
structure SameAt (s s' : VectorStore) (y : Bytes) : Prop where
  slot : s'.extToInt.lookup y = s.extToInt.lookup y
  isLive : ∀ j, s.extToInt.lookup y = some j → s'.isLive j = s.isLive j
  get : ∀ j, s.extToInt.lookup y = some j → s'.get j = s.get j
  metadata : ∀ j, s.extToInt.lookup y = some j → s'.metadata j = s.metadata j

theorem SameAt.refl (s : VectorStore) (y : Bytes) : SameAt s s y :=
  ⟨rfl, fun _ _ => rfl, fun _ _ => rfl, fun _ _ => rfl⟩

theorem SameAt.trans {s'' : VectorStore} {y : Bytes} (h : SameAt s s' y) (h' : SameAt s' s'' y) :
    SameAt s s'' y where
  slot := h'.slot.trans h.slot
  isLive j hj := (h'.isLive j (h.slot.trans hj)).trans (h.isLive j hj)
  get j hj := (h'.get j (h.slot.trans hj)).trans (h.get j hj)
  metadata j hj := (h'.metadata j (h.slot.trans hj)).trans (h.metadata j hj)

theorem SameAt.resolve_eq {y : Bytes} (h : SameAt s s' y) : s'.resolve y = s.resolve y := by
  unfold resolve
  rw [h.slot]
  cases hlookup : s.extToInt.lookup y with
  | none => rfl
  | some j => simp only [h.isLive j hlookup]

theorem SameAt.content_eq {y : Bytes} (h : SameAt s s' y) : s'.content y = s.content y := by
  rw [content, content, h.resolve_eq]
  cases hresolve : s.resolve y with
  | none => rfl
  | some j =>
      have hlookup := (resolve_eq_some_iff.mp hresolve).1
      simp only [Option.map_some, h.get j hlookup, h.metadata j hlookup]

theorem sameAt_writeSlot (h : s.Wf) {x y : Bytes} {id : Nat} (hid : s.extToInt.lookup x = some id)
    {vec : Vec} (hvec : vec.length = s.dim.toNat) (m? : Option Metadata) (hne : y ≠ x) :
    SameAt s (s.writeSlot id vec m?) y := by
  have hrow := h.row_le (h.lt_of_lookup hid)
  have hother : ∀ j, s.extToInt.lookup y = some j → j ≠ id := by
    rintro j hj rfl
    exact hne (h.lookup_injective hj hid)
  refine ⟨rfl, fun _ _ => rfl, fun j hj => Arena.row_copyTo_of_ne hrow hvec (hother j hj), fun j hj => ?_⟩
  cases m? with
  | none => rfl
  | some m =>
      change (s.metas.set id m)[j]? = s.metas[j]?
      rw [List.getElem?_set_ne (hother j hj).symm]

theorem sameAt_reviveSlot (h : s.Ids) {x y : Bytes} {id : Nat} (hid : s.extToInt.lookup x = some id)
    (hne : y ≠ x) : SameAt s (s.reviveSlot id) y := by
  refine ⟨rfl, fun j hj => ?_, fun _ _ => rfl, fun _ _ => rfl⟩
  rw [isLive_reviveSlot (h.live_length ▸ h.lt_of_lookup hid), if_neg]
  rintro rfl
  exact hne (h.lookup_injective hj hid)

theorem sameAt_tombstoneSlot (h : s.Ids) {x y : Bytes} {id : Nat} (hid : s.extToInt.lookup x = some id)
    (hne : y ≠ x) : SameAt s (s.tombstoneSlot id) y := by
  refine ⟨rfl, fun j hj => ?_, fun _ _ => rfl, fun _ _ => rfl⟩
  rw [isLive_tombstoneSlot, if_neg]
  rintro rfl
  exact hne (h.lookup_injective hj hid)

theorem sameAt_appendSlot (h : s.Wf) {x y : Bytes} (vec : Vec) (m : Metadata) (hne : y ≠ x) :
    SameAt s (s.appendSlot x vec m) y := by
  refine ⟨Finmap.lookup_insert_of_ne _ hne, fun j hj => ?_, fun j hj => ?_, fun j hj => ?_⟩
  · have hlt := h.lt_of_lookup hj
    rw [isLive_appendSlot h.live_length, if_neg (by omega)]
  · exact Arena.row_append_of_le (h.row_le (h.lt_of_lookup hj))
  · have hlt := h.lt_of_lookup hj
    rw [← h.metas_length] at hlt
    exact List.getElem?_append_left hlt

/-- An op on one id changes no other id's slot number, vector, metadata or liveness. -/
theorem Applied.sameAt (h : s.Wf) (hlen : op.vec.length < 2 ^ 32) (happlied : s.Applied op r s')
    {y : Bytes} (hne : y ≠ op.extId) : SameAt s s' y := by
  cases happlied with
  | rejected => exact SameAt.refl s y
  | absent => exact SameAt.refl s y
  | appended => exact sameAt_appendSlot h _ _ hne
  | overwritten id _ hdim hid _ => exact sameAt_writeSlot h hid (toNat_eq_of_ofNat_eq hlen hdim) _ hne
  | revived id _ hdim hid _ =>
      have hvec := toNat_eq_of_ofNat_eq hlen hdim
      exact (sameAt_writeSlot h hid hvec _ hne).trans
        (sameAt_reviveSlot (h.writeSlot (h.lt_of_lookup hid) hvec _).toIds hid hne)
  | updated id _ hdim hid _ => exact sameAt_writeSlot h hid (toNat_eq_of_ofNat_eq hlen hdim) _ hne
  | tombstoned id _ hid _ => exact sameAt_tombstoneSlot h.toIds hid hne

/-! ### The op's own id -/

theorem metadata_writeSlot_self (h : s.Ids) {id : Nat} (hid : id < s.slotCount) (vec : Vec)
    (m? : Option Metadata) :
    ((s.writeSlot id vec m?).metadata id).getD ∅ = m?.getD ((s.metadata id).getD ∅) := by
  cases m? with
  | none => rfl
  | some m =>
      have hlt : id < s.metas.length := h.metas_length ▸ hid
      change ((s.metas.set id m)[id]?).getD ∅ = m
      rw [List.getElem?_set_self hlt]
      rfl

theorem get_writeSlot_self (h : s.Wf) {id : Nat} (hid : id < s.slotCount) {vec : Vec}
    (hvec : vec.length = s.dim.toNat) (m? : Option Metadata) : (s.writeSlot id vec m?).get id = vec := by
  have hrow := h.row_le hid
  rw [Nat.add_mul] at hrow
  exact Arena.row_copyTo_self (by omega) hvec

theorem content_self_of_slot {id : Nat} {x : Bytes} (hid : s.extToInt.lookup x = some id)
    (hlive : s.isLive id = true) : s.content x = some ⟨s.get id, (s.metadata id).getD ∅⟩ :=
  content_of_resolve (resolve_eq_some_iff.mpr ⟨hid, hlive⟩)

theorem Applied.content_self (h : s.Wf) (hlen : op.vec.length < 2 ^ 32) (happlied : s.Applied op r s') :
    s'.content op.extId = op.effect s.dim (s.content op.extId) := by
  have hfits : UInt32.ofNat op.vec.length = s.dim ↔ op.Fits s.dim := ofNat_length_eq_iff hlen
  cases happlied with
  | rejected hop hdim =>
      have hdelete : op.type ≠ .delete := (Applied.rejected hop hdim).of_error.1
      rw [Op.effect_of_not_fits hdelete (mt hfits.mpr hdim)]
  | absent hop hid => rw [content_eq_none_iff.mpr hid, Op.effect_none hop]
  | appended hop hdim hid =>
      have hvec : op.vec.length = s.dim.toNat := hfits.mp hdim
      have hlive : (s.appendSlot op.extId op.vec (op.metadata.getD ∅)).isLive s.slotCount = true := by
        rw [isLive_appendSlot h.live_length, if_pos rfl]
      have hget : (s.appendSlot op.extId op.vec (op.metadata.getD ∅)).get s.slotCount = op.vec :=
        Arena.row_append_last h.arena_length hvec
      have hmeta : (s.appendSlot op.extId op.vec (op.metadata.getD ∅)).metadata s.slotCount =
          some (op.metadata.getD ∅) := by
        change (s.metas ++ [_])[s.slotCount]? = _
        rw [← h.metas_length, List.getElem?_concat_length]
      rw [Op.effect_insert hop (hfits.mp hdim), content_self_of_slot (Finmap.lookup_insert _) hlive, hget,
        hmeta]
      rfl
  | overwritten id hop hdim hid hlive =>
      have hlt := h.lt_of_lookup hid
      rw [Op.effect_insert hop (hfits.mp hdim),
        content_self_of_slot (s := s.writeSlot id op.vec (some (op.metadata.getD ∅))) hid hlive,
        get_writeSlot_self h hlt (hfits.mp hdim), metadata_writeSlot_self h.toIds hlt]
      rfl
  | revived id hop hdim hid hlive =>
      have hlt := h.lt_of_lookup hid
      have hrevived : ((s.writeSlot id op.vec
          (some (op.metadata.getD ∅))).reviveSlot id).isLive id = true := by
        have hlt' : id < (s.writeSlot id op.vec (some (op.metadata.getD ∅))).live.length :=
          h.live_length ▸ hlt
        rw [isLive_reviveSlot hlt', if_pos rfl]
      have hself : ((s.writeSlot id op.vec (some (op.metadata.getD ∅))).reviveSlot id).content op.extId =
          some ⟨(s.writeSlot id op.vec (some (op.metadata.getD ∅))).get id,
            ((s.writeSlot id op.vec (some (op.metadata.getD ∅))).metadata id).getD ∅⟩ :=
        content_of_resolve (resolve_eq_some_iff.mpr ⟨hid, hrevived⟩)
      rw [Op.effect_insert hop (hfits.mp hdim), hself]
      rw [get_writeSlot_self h hlt (hfits.mp hdim), metadata_writeSlot_self h.toIds hlt]
      rfl
  | updated id hop hdim hid hlive =>
      have hlt := h.lt_of_lookup hid
      rw [Op.effect_update hop (hfits.mp hdim), content_self_of_slot hid hlive,
        content_self_of_slot (s := s.writeSlot id op.vec op.metadata) hid hlive,
        get_writeSlot_self h hlt (hfits.mp hdim), metadata_writeSlot_self h.toIds hlt]
      rfl
  | tombstoned id hop hid hlive =>
      rw [Op.effect_delete hop, content_eq_none_iff, resolve_eq_none_iff]
      intro id' hid'
      rw [Option.some.inj (hid.symm.trans hid'), isLive_tombstoneSlot, if_pos rfl]

theorem Applied.content_eq (h : s.Wf) (hlen : op.vec.length < 2 ^ 32) (happlied : s.Applied op r s') :
    s'.content = KeyedLog.write s.content (op.write s.dim) := by
  funext y
  by_cases hy : y = op.extId
  · subst hy
    exact (happlied.content_self h hlen).trans (KeyedLog.write_self s.content (op.write s.dim)).symm
  · exact (happlied.sameAt h hlen hy).content_eq.trans
      (KeyedLog.write_of_ne s.content (op.write s.dim) hy).symm

end VectorStore

end ToyVdb
