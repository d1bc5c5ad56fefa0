import ToyVdb.Engine.OnDisk

/-!
# Durable engines

The steps a durable engine goes through: calls, barriers, snapshots, restarts, and crashes between the two
halves of a snapshot. The invariant that carries recovery says what is on disk in terms of what is in
memory: replaying the snapshot's records and then the log's gives the content of the store.
-/

namespace ToyVdb

/-! ### Rejected ops -/

namespace VectorStore

/-- The op is one the store checks, and its vector has the wrong length. -/
def Rejects (s : VectorStore) (op : Op) : Prop :=
  (op.type = .insert ∨ op.type = .update ∧ s.resolve op.extId ≠ none) ∧ UInt32.ofNat op.vec.length ≠ s.dim

instance (s : VectorStore) (op : Op) : Decidable (s.Rejects op) := inferInstanceAs (Decidable (_ ∧ _))

variable {s s' : VectorStore} {op : Op}

theorem Applied.rejects {err : Error} (h : s.Applied op (.error err) s') : s.Rejects op := by
  cases h with
  | rejected hop hdim => exact ⟨hop, hdim⟩

theorem Applied.not_rejects {r : Option Nat} (h : s.Applied op (.ok r) s') : ¬ s.Rejects op := by
  intro hrejects
  cases h with
  | absent hop hid => exact hrejects.1.elim hop fun hupdate => hupdate.2 hid
  | appended _ hdim => exact hrejects.2 hdim
  | overwritten _ _ hdim => exact hrejects.2 hdim
  | revived _ _ hdim => exact hrejects.2 hdim
  | updated _ _ hdim => exact hrejects.2 hdim
  | tombstoned _ hop =>
      rcases hrejects.1 with htype | ⟨htype, -⟩
      · rw [hop] at htype
        cases htype
      · rw [hop] at htype
        cases htype

theorem Rejects.congr (h : s.Rejects op) (hcontent : s'.content = s.content)
    (hdim : s'.dim = s.dim) : s'.Rejects op := by
  refine ⟨h.1.imp_right fun hupdate => ⟨hupdate.1, fun hid => hupdate.2 ?_⟩, hdim ▸ h.2⟩
  rwa [← content_eq_none_iff, hcontent, content_eq_none_iff] at hid

end VectorStore

/-! ### Steps -/

/-- What a client, or a crash, does to a durable engine. A cut snapshot or compaction has published
its blob and not yet truncated the log when the process dies; the engine is then reopened. -/
inductive Step
  | call (m : Mutation)
  | flush
  | snapshot
  | reopen
  | cutSnapshot
  | cutCompact

namespace Engine

open Outcome

variable {Score : Type}

section Exec

variable [LT Score] [DecidableLT Score] (cfg : EngineConfig Score)

/-- A step; a call that throws leaves the engine to go on with, a restart that throws leaves none. -/
def step (e : Engine) (order : IterOrder) : Step → Except Error Engine
  | .call m => .ok (m.exec cfg order e).2
  | .flush => .ok e.flush
  | .snapshot => .ok (e.snapshot order)
  | .reopen => create cfg e.disk
  | .cutSnapshot => create cfg (e.putSnapshot order).disk
  | .cutCompact =>
    match e.rebuild cfg with
    | (.error err, _) => .error err
    | (.ok (), e) => create cfg (e.putSnapshot order).disk

def steps (e : Engine) (run : List (IterOrder × Step)) : Except Error Engine :=
  run.foldlM (fun e next => e.step cfg next.1 next.2) e

/-- Every step of a run meets a condition in the state it finds. -/
def Always (P : Engine → IterOrder → Step → Prop) : Engine → List (IterOrder × Step) → Prop
  | _, [] => True
  | e, next :: run => P e next.1 next.2 ∧ ∀ e', e.step cfg next.1 next.2 = .ok e' → Always P e' run

end Exec

variable {cfg : EngineConfig Score} {e e' : Engine} {order : IterOrder} {w : Write}

/-- What every step yields from what it finds, a run yields. -/
theorem Always.yields [LT Score] [DecidableLT Score] {P : Engine → IterOrder → Step → Prop}
    {Inv : Engine → Prop}
    (hstep : ∀ e order next, Inv e → P e order next → Yields (e.step cfg order next) Inv)
    (run : List (IterOrder × Step)) (hrun : Always cfg P e run) (hinv : Inv e) :
    Yields (e.steps cfg run) Inv := by
  induction run generalizing e with
  | nil => exact .pure hinv
  | cons next run ih =>
      obtain ⟨e', hnext, hinv'⟩ := hstep e next.1 next.2 hinv hrun.1
      have hrest := ih (hrun.2 e' hnext) hinv'
      rw [steps, List.foldlM_cons, hnext]
      exact hrest

/-- The call logs its op: it is not an update or an erase of an absent id. -/
def Logged (e : Engine) (w : Write) : Prop := w.op.type = .insert ∨ e.store.resolve w.op.extId ≠ none

/-- What is logged fits the 32-bit length of a frame. -/
def SmallRecord (e : Engine) (order : IterOrder) : Step → Prop
  | .call (.write w) => Logged e w → (encodeOp order w.op).length < 2 ^ 32
  | _ => True

/-- A vector that is supplied has the engine's dimension. -/
def FitsDim (cfg : EngineConfig Score) : Step → Prop
  | .call (.write w) => w.op.type ≠ .delete → w.op.Fits cfg.dim
  | _ => True

theorem Mutated.rejects_iff {r : Except Error Nat} (h : Mutated cfg e op r e') :
    e.store.Rejects op ↔ ∃ err, r = .error err := by
  constructor
  · intro hrejects
    cases h with
    | rejected => exact ⟨_, rfl⟩
    | absent happlied => exact absurd hrejects happlied.not_rejects
    | appended happlied => exact absurd hrejects happlied.not_rejects
    | rewritten happlied => exact absurd hrejects happlied.not_rejects
    | revived happlied => exact absurd hrejects happlied.not_rejects
    | tombstoned happlied => exact absurd hrejects happlied.not_rejects
  · rintro ⟨err, rfl⟩
    cases h with
    | rejected happlied => exact happlied.rejects

theorem logged_of_rejects (h : e.store.Rejects w.op) : Logged e w := h.1.imp_right fun hupdate => hupdate.2

theorem Written.mutated {r : Except Error Unit} (h : Written cfg e order w r e') (hid : Logged e w) :
    ∃ r', Mutated cfg (e.logOp order w.op) w.op r' e' := by
  cases h with
  | skipped hop hnone => exact absurd hnone (hid.resolve_left hop)
  | done _ hmut => exact ⟨_, hmut⟩
  | thrown _ hmut => exact ⟨_, hmut⟩

theorem Written.eq_of_not_logged {r : Except Error Unit} (h : Written cfg e order w r e')
    (hid : ¬ Logged e w) : e' = e := by
  cases h with
  | skipped => rfl
  | done hid' => exact absurd hid' hid
  | thrown hid' => exact absurd hid' hid

/-- A call throws if and only if its op is rejected, and then it has done nothing but log it. -/
theorem Written.rejects_iff {r : Except Error Unit} (h : Written cfg e order w r e') :
    e.store.Rejects w.op ↔ ∃ err, r = .error err := by
  cases h with
  | skipped hop hid =>
      constructor
      · exact fun hrejects => absurd hid ((logged_of_rejects hrejects).resolve_left hop)
      · rintro ⟨err, herr⟩
        cases herr
  | done _ hmut =>
      constructor
      · intro hrejects
        obtain ⟨err, herr⟩ := hmut.rejects_iff.mp hrejects
        cases herr
      · rintro ⟨err, herr⟩
        cases herr
  | thrown _ hmut => exact ⟨fun _ => ⟨_, rfl⟩, fun _ => hmut.rejects_iff.mpr ⟨_, rfl⟩⟩

/-- No call is rejected. -/
def Accepted (e : Engine) : Step → Prop
  | .call (.write w) => ¬ e.store.Rejects w.op
  | _ => True

theorem op_delete (hop : w.op.type = .delete) : w.op.vec = [] ∧ w.op.metadata = none := by
  cases w with
  | insert => cases hop
  | update => cases hop
  | erase => exact ⟨rfl, rfl⟩

theorem op_insert (hop : w.op.type = .insert) : ∃ m, w.op.metadata = some m := by
  cases w with
  | insert extId vec m => exact ⟨m, rfl⟩
  | update => cases hop
  | erase => cases hop

theorem accepted_of_fitsDim (hwf : e.Wf cfg) {next : Step} (h : FitsDim cfg next) : Accepted e next := by
  cases next with
  | call m =>
      cases m with
      | write w =>
          rintro ⟨hop, hdim⟩
          have hdelete : w.op.type ≠ .delete := by
            rcases hop with hop | ⟨hop, -⟩
            · rw [hop]
              decide
            · rw [hop]
              decide
          exact hdim (by rw [h hdelete, hwf.dim_eq, UInt32.ofNat_toNat])
      | compact => trivial
  | flush => trivial
  | snapshot => trivial
  | reopen => trivial
  | cutSnapshot => trivial
  | cutCompact => trivial

theorem length_vec_lt (hsmall : (encodeOp order w.op).length < 2 ^ 32) : w.op.vec.length < 2 ^ 32 :=
  (encodable_of_length hsmall op_delete).vec

/-- An op that is logged and not rejected is one that a replay accepts. -/
theorem acceptable_of_not_rejects (hwf : e.Wf cfg) (hid : Logged e w)
    (hsmall : (encodeOp order w.op).length < 2 ^ 32)
    (hok : ¬ e.store.Rejects w.op) : Acceptable cfg.dim w.op := by
  refine ⟨fun hdelete => (op_delete hdelete).1, fun hdelete => ?_⟩
  by_contra hfits
  refine hok ⟨?_, fun heq => hfits ?_⟩
  · cases htype : w.op.type with
    | insert => exact .inl rfl
    | update => exact .inr ⟨rfl, hid.resolve_left fun hop => by rw [htype] at hop; cases hop⟩
    | delete => exact absurd htype hdelete
  · rw [hwf.dim_eq] at heq
    exact (VectorStore.ofNat_length_eq_iff (length_vec_lt hsmall)).mp heq

/-! ### The content -/

theorem Written.content_eq {r : Except Error Unit} (hwf : e.Wf cfg) (hstore : e.store.Wf)
    (hlen : Logged e w → w.op.vec.length < 2 ^ 32) (hwritten : Written cfg e order w r e') :
    e'.store.Wf ∧ e'.store.content = KeyedLog.write e.store.content (w.op.write cfg.dim) := by
  by_cases hid : Logged e w
  · obtain ⟨r', hmut⟩ := hwritten.mutated hid
    obtain ⟨⟨r₀, happlied⟩, -⟩ := hmut.applied
    have hcontent := happlied.content_eq hstore (hlen hid)
    rw [hwf.dim_eq] at hcontent
    exact ⟨hstore.applied (hlen hid) happlied, hcontent⟩
  · -- an op on an absent id has no effect there
    obtain ⟨hop, hresolve⟩ : w.op.type ≠ .insert ∧ e.store.resolve w.op.extId = none := by
      rwa [Logged, not_or, not_not] at hid
    have hnone : e.store.content w.op.extId = none := VectorStore.content_eq_none_iff.mpr hresolve
    rw [hwritten.eq_of_not_logged hid]
    refine ⟨hstore, ?_⟩
    show e.store.content = Function.update e.store.content w.op.extId
      (w.op.effect cfg.dim (e.store.content w.op.extId))
    rw [hnone, Op.effect_none hop, ← hnone, Function.update_eq_self]

/-- What a slot holds fits a record. -/
def SmallEntry (x : Bytes) (entry : Entry) : Prop :=
  (encodeOp .byKey ⟨.insert, x, entry.vec, some entry.metadata⟩).length < 2 ^ 32

theorem smallEntry_iff (order : IterOrder) {x : Bytes} {entry : Entry} :
    SmallEntry x entry ↔
      5 + x.length + (4 + 4 * entry.vec.length +
        (encodeMeta order (some entry.metadata)).length) < 2 ^ 32 := by
  rw [SmallEntry, length_encodeOp, if_neg fun htype => OpType.noConfusion htype,
    length_encodeMeta .byKey order]

/-- An op whose record is small makes a small entry of a small entry. -/
theorem smallEntry_effect {dim : UInt32} {e? : Option Entry} {entry : Entry}
    (hsmall : (encodeOp order w.op).length < 2 ^ 32)
    (hold : ∀ old, e? = some old → old.vec.length = dim.toNat ∧ SmallEntry w.op.extId old)
    (heffect : w.op.effect dim e? = some entry) : SmallEntry w.op.extId entry := by
  by_cases hdelete : w.op.type = .delete
  · rw [Op.effect_delete hdelete] at heffect
    cases heffect
  rw [length_encodeOp, if_neg hdelete] at hsmall
  by_cases hfits : w.op.Fits dim
  · have hvec : w.op.vec.length = dim.toNat := hfits
    cases htype : w.op.type with
    | insert =>
        obtain ⟨m, hm⟩ := op_insert htype
        rw [Op.effect_insert htype hfits, hm] at heffect
        cases heffect
        rw [smallEntry_iff order]
        rwa [hm] at hsmall
    | update =>
        rw [Op.effect_update htype hfits] at heffect
        obtain ⟨old, hsome, rfl⟩ := Option.map_eq_some_iff.mp heffect
        obtain ⟨holdVec, holdSmall⟩ := hold old hsome
        rw [smallEntry_iff order] at holdSmall ⊢
        cases hm : w.op.metadata with
        | none =>
            show 5 + _ + (4 + 4 * w.op.vec.length + (encodeMeta order (some old.metadata)).length) < _
            omega
        | some m => rwa [hm] at hsmall
    | delete => exact absurd htype hdelete
  · rw [Op.effect_of_not_fits hdelete hfits] at heffect
    exact (hold entry heffect).2

theorem length_content {s : VectorStore} (h : s.Ids) {x : Bytes} {entry : Entry}
    (hx : s.content x = some entry) :
    entry.vec.length = s.dim.toNat := by
  obtain ⟨id, hid, rfl⟩ := Option.map_eq_some_iff.mp hx
  exact length_get h (h.lt_of_isLive (VectorStore.resolve_eq_some_iff.mp hid).2)

/-! ### What holds in memory -/

/-- The engine is well formed, and everything it holds can be written to disk. -/
structure Sane (cfg : EngineConfig Score) (e : Engine) : Prop where
  wf : e.Wf cfg
  store : e.store.Wf
  small : ∀ x entry, e.store.content x = some entry → SmallEntry x entry

theorem Sane.written {r : Except Error Unit} (h : Sane cfg e)
    (hsmall : SmallRecord e order (.call (.write w))) (hwritten : Written cfg e order w r e') :
    Sane cfg e' := by
  obtain ⟨hstore, hcontent⟩ := hwritten.content_eq h.wf h.store fun hid => length_vec_lt (hsmall hid)
  refine ⟨hwritten.wf h.wf, hstore, fun x entry hx => ?_⟩
  by_cases hid : Logged e w
  · rw [hcontent] at hx
    by_cases hkey : x = w.op.extId
    · subst hkey
      have heffect := (KeyedLog.write_self e.store.content (w.op.write cfg.dim)).symm.trans hx
      refine smallEntry_effect (hsmall hid) (fun old hold => ⟨?_, h.small _ old hold⟩) heffect
      rw [length_content h.wf.ids hold, h.wf.dim_eq]
    · rw [KeyedLog.write_of_ne _ _ hkey] at hx
      exact h.small x entry hx
  · rw [hwritten.eq_of_not_logged hid] at hx
    exact h.small x entry hx

end Engine

end ToyVdb
