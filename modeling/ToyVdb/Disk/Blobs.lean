import ToyVdb.Disk.Syscalls

/-!
# The blob store as a keyed store

A directory of blobs against what a keyed store is: a key exists once it was put, and it has the data of the
last put. Blobs are published through a temporary name in the same directory, so a put to a key takes away
the blob whose key is that temporary name.
-/

namespace ToyVdb

namespace FileBlobStore

/-- A name of a file in a directory. A path ends at the first zero byte, so that no name has one. -/
structure PlainName (key : Bytes) : Prop where
  nonempty : key ≠ []
  no_slash : 0x2F ∉ key
  no_zero : 0 ∉ key
  not_dot : key ≠ ascii "."
  not_dots : key ≠ ascii ".."

/-- A sequence of puts on an empty directory. -/
def putAll (puts : List (Bytes × Bytes)) : FileBlobStore :=
  puts.foldl (fun files p => put files p.1 p.2) ∅

/-- The data of the last put to a key. -/
def lastPut (puts : List (Bytes × Bytes)) (key : Bytes) : Option Bytes :=
  ((puts.filter fun p => p.1 = key).getLast?).map Prod.snd

/-- After the puts, the directory is what a keyed store is. -/
def Keyed (puts : List (Bytes × Bytes)) : Prop :=
  ∀ key, PlainName key →
    ((putAll puts).contains key = true ↔ key ∈ puts.map Prod.fst) ∧
    ∀ data, lastPut puts key = some data → (putAll puts).get key = .ok data

/-- After the last put to a key there was one to the key whose temporary name it is. -/
def Overtaken (puts : List (Bytes × Bytes)) (key : Bytes) : Prop :=
  ∃ before base data after, puts = before ++ (base, data) :: after ∧ base ++ ascii ".tmp" = key ∧
    key ∈ before.map Prod.fst ∧ key ∉ after.map Prod.fst

/-! ### One more put -/

variable {puts : List (Bytes × Bytes)} {p : Bytes × Bytes} {key : Bytes}

theorem putAll_append (puts : List (Bytes × Bytes)) (p : Bytes × Bytes) :
    putAll (puts ++ [p]) = put (putAll puts) p.1 p.2 := by
  rw [putAll, List.foldl_append]
  rfl

theorem lastPut_append_self (puts : List (Bytes × Bytes)) (p : Bytes × Bytes) :
    lastPut (puts ++ [p]) p.1 = some p.2 := by
  simp [lastPut]

theorem lastPut_append_of_ne (hkey : key ≠ p.1) : lastPut (puts ++ [p]) key = lastPut puts key := by
  simp [lastPut, Ne.symm hkey]

theorem lastPut_eq_none_iff : lastPut puts key = none ↔ key ∉ puts.map Prod.fst := by
  rw [lastPut, Option.map_eq_none_iff, List.getLast?_eq_none_iff, List.filter_eq_nil_iff, List.mem_map]
  constructor
  · rintro hnone ⟨p, hp, heq⟩
    exact hnone p hp (decide_eq_true heq)
  · intro hnone p hp heq
    exact hnone ⟨p, hp, of_decide_eq_true heq⟩

theorem last_cases {before after : List (Bytes × Bytes)} {x : Bytes × Bytes}
    (hsplit : puts ++ [p] = before ++ x :: after) :
    (puts = before ∧ p = x ∧ after = []) ∨ ∃ rest, puts = before ++ x :: rest ∧ after = rest ++ [p] := by
  rcases List.eq_nil_or_concat' after with rfl | ⟨rest, last, rfl⟩
  · obtain ⟨hbefore, hlast⟩ := List.append_inj' hsplit rfl
    exact .inl ⟨hbefore, List.singleton_inj.mp hlast, rfl⟩
  · rw [← List.cons_append, ← List.append_assoc] at hsplit
    obtain ⟨hbefore, hlast⟩ := List.append_inj' hsplit rfl
    exact .inr ⟨rest, hbefore, by rw [hlast]⟩

/-- The last put to a key is not overtaken, for no key is its own temporary name. -/
theorem not_overtaken_self (puts : List (Bytes × Bytes)) (p : Bytes × Bytes) :
    ¬ Overtaken (puts ++ [p]) p.1 := by
  rintro ⟨before, base, data, after, hsplit, hbase, -, hafter⟩
  rcases last_cases hsplit with ⟨-, rfl, -⟩ | ⟨rest, -, rfl⟩
  · exact tmp_ne _ hbase
  · exact hafter (List.mem_map_of_mem (List.mem_append_right _ List.mem_cons_self))

theorem overtaken_tmp (puts : List (Bytes × Bytes)) (p : Bytes × Bytes) :
    Overtaken (puts ++ [p]) (p.1 ++ ascii ".tmp") ↔ p.1 ++ ascii ".tmp" ∈ puts.map Prod.fst := by
  constructor
  · rintro ⟨before, base, data, after, hsplit, -, hbefore, hafter⟩
    have hmem : p.1 ++ ascii ".tmp" ∈ (puts ++ [p]).map Prod.fst := by
      rw [hsplit, List.map_append]
      exact List.mem_append_left _ hbefore
    rw [List.map_append, List.map_singleton] at hmem
    exact (List.mem_append.mp hmem).resolve_right fun hself => tmp_ne p.1 (List.mem_singleton.mp hself)
  · intro hmem
    exact ⟨puts, p.1, p.2, [], rfl, rfl, hmem, List.not_mem_nil⟩

theorem overtaken_append_of_ne (hkey : key ≠ p.1) (htmp : key ≠ p.1 ++ ascii ".tmp") :
    Overtaken (puts ++ [p]) key ↔ Overtaken puts key := by
  constructor
  · rintro ⟨before, base, data, after, hsplit, hbase, hbefore, hafter⟩
    rcases last_cases hsplit with ⟨-, rfl, -⟩ | ⟨rest, rfl, rfl⟩
    · exact absurd hbase.symm htmp
    · rw [List.map_append, List.mem_append, not_or] at hafter
      exact ⟨before, base, data, rest, rfl, hbase, hbefore, hafter.1⟩
  · rintro ⟨before, base, data, after, rfl, hbase, hbefore, hafter⟩
    refine ⟨before, base, data, after ++ [p], by rw [List.append_assoc, List.cons_append], hbase, hbefore, ?_⟩
    rw [List.map_append, List.mem_append, List.map_singleton, List.mem_singleton]
    rintro (hmem | heq)
    · exact hafter hmem
    · exact hkey heq

/-! ### All puts -/

theorem lookup_putAll_iff (puts : List (Bytes × Bytes)) (key : Bytes) :
    (putAll puts).lookup key = lastPut puts key ↔ ¬ Overtaken puts key := by
  induction puts using List.reverseRecOn with
  | nil =>
      refine ⟨fun _ => ?_, fun _ => rfl⟩
      rintro ⟨before, base, data, after, hsplit, -⟩
      exact absurd hsplit (by simp)
  | append_singleton puts p ih =>
      rw [putAll_append]
      by_cases hkey : key = p.1
      · subst hkey
        rw [lookup_put, lastPut_append_self]
        exact ⟨fun _ => not_overtaken_self puts p, fun _ => rfl⟩
      · rw [lookup_put_of_ne _ hkey, lastPut_append_of_ne hkey]
        by_cases htmp : key = p.1 ++ ascii ".tmp"
        · rw [if_pos htmp, eq_comm, lastPut_eq_none_iff, htmp, overtaken_tmp]
        · rw [if_neg htmp, ih, overtaken_append_of_ne hkey htmp]

/-- The directory shows a key what a keyed store would, if and only if the file under it does. -/
theorem keyed_at_iff (puts : List (Bytes × Bytes)) (key : Bytes) :
    (((putAll puts).contains key = true ↔ key ∈ puts.map Prod.fst) ∧
      ∀ data, lastPut puts key = some data → (putAll puts).get key = .ok data) ↔
    (putAll puts).lookup key = lastPut puts key := by
  rw [contains, get, ← not_iff_not (b := key ∈ _), ← lastPut_eq_none_iff]
  cases (putAll puts).lookup key with
  | none => cases lastPut puts key <;> simp
  | some found => cases lastPut puts key <;> simp [eq_comm]

/-- **The blob store is a keyed store but for temporary names.** After any sequence of puts the directory is
what a keyed store is if and only if no key was overtaken. -/
theorem blob_store_is_keyed_iff (puts : List (Bytes × Bytes)) (hplain : ∀ p ∈ puts, PlainName p.1) :
    Keyed puts ↔ ∀ p ∈ puts, ¬ Overtaken puts p.1 := by
  constructor
  · intro hkeyed p hp
    exact (lookup_putAll_iff puts p.1).mp ((keyed_at_iff puts p.1).mp (hkeyed p.1 (hplain p hp)))
  · intro hnone key _
    apply (keyed_at_iff puts key).mpr
    apply (lookup_putAll_iff puts key).mpr
    intro hovertaken
    obtain ⟨before, base, data, after, rfl, -, hmem, -⟩ := id hovertaken
    obtain ⟨p, hp, rfl⟩ := List.mem_map.mp hmem
    exact hnone p (List.mem_append_left _ hp) hovertaken

/-- Keys shorter than the suffix are never temporary names. -/
theorem blob_store_is_keyed_sample : Keyed [(ascii "a", [1]), (ascii "b", [2]), (ascii "a", [3])] := by
  have hplain : ∀ p ∈ [(ascii "a", ([1] : Bytes)), (ascii "b", [2]), (ascii "a", [3])], PlainName p.1 := by
    intro p hp
    constructor
    all_goals revert p; decide
  have hshort : ∀ p ∈ [(ascii "a", ([1] : Bytes)), (ascii "b", [2]), (ascii "a", [3])], p.1.length = 1 := by
    decide
  refine (blob_store_is_keyed_iff _ hplain).mpr ?_
  rintro p hp ⟨before, base, data, after, -, hbase, -⟩
  have hlen := hshort p hp
  rw [← hbase, List.length_append, show (ascii ".tmp").length = 4 by decide] at hlen
  omega

/-- The second put goes through the first one's file. -/
theorem put_takes_temporary_name :
    PlainName (ascii "a.tmp") ∧ PlainName (ascii "a") ∧ ¬ Keyed [(ascii "a.tmp", [1]), (ascii "a", [2])] := by
  refine ⟨by constructor <;> decide, by constructor <;> decide, fun hkeyed => ?_⟩
  obtain ⟨hexists, -⟩ := hkeyed (ascii "a.tmp") (by constructor <;> decide)
  exact absurd (hexists.mpr (by decide)) (by decide)

end FileBlobStore

end ToyVdb
