import Mathlib.Data.List.Perm.Basic
import Mathlib.Tactic.Common
import ToyVdb.Lib.PriorityQueue

/-!
# Heaps over comparisons that need not be orders

What a heap promises when the comparison it is given is a strict weak order on its elements, and what is left
of that when it is not. Pushing adds an element, popping takes away the one that was on top, and that is all
that can be relied on in general: which element is on top, and in which order a heap is emptied, is only
known of a heap whose elements were comparable all along.

A bounded scan keeps the least elements. One that is offered an element that is not below any other keeps it
for good once it is in, and passes it by once the heap is full.
-/

namespace Heap

variable {α : Type}

/-- A strict weak order on the elements with the given property. -/
structure WeakOrderOn (less : α → α → Prop) (S : α → Prop) : Prop where
  asymm : ∀ x y, S x → S y → less x y → ¬ less y x
  trans : ∀ x y z, S x → S y → S z → ¬ less x y → ¬ less y z → ¬ less x z

theorem WeakOrderOn.mono {less : α → α → Prop} {S T : α → Prop} (h : WeakOrderOn less S)
    (hsub : ∀ x, T x → S x) :
    WeakOrderOn less T where
  asymm x y hx hy := h.asymm x y (hsub x hx) (hsub y hy)
  trans x y z hx hy hz := h.trans x y z (hsub x hx) (hsub y hy) (hsub z hz)

theorem WeakOrderOn.irrefl {less : α → α → Prop} {S : α → Prop} (h : WeakOrderOn less S) {x : α} (hx : S x) :
    ¬ less x x := fun hless => h.asymm x x hx hx hless hless

/-- A max-heap. -/
structure Impl (α : Type) (less : α → α → Prop) where
  State : Type
  empty : State
  push : State → α → State
  top : State → Option α
  pop : State → State
  /-- What is in the heap. -/
  items : State → List α
  /-- The heap is in order. -/
  Valid : State → Prop
  items_empty : items empty = []
  push_perm : ∀ h x, (items (push h x)).Perm (x :: items h)
  top_eq_none : ∀ h, top h = none → items h = []
  pop_perm : ∀ h x, top h = some x → (items h).Perm (x :: items (pop h))
  valid_empty : Valid empty
  valid_push : ∀ h x, Valid h → WeakOrderOn less (fun y => y ∈ x :: items h) → Valid (push h x)
  valid_pop : ∀ h, Valid h → Valid (pop h)
  top_max : ∀ h x, Valid h → top h = some x → ∀ y ∈ items h, ¬ less x y

namespace Impl

variable {less : α → α → Prop} (impl : Impl α less)

/-- Take the elements off one by one, the last one first. -/
def drain : Nat → impl.State → List α
  | 0, _ => []
  | n + 1, h =>
    match impl.top h with
    | none => []
    | some x => drain n (impl.pop h) ++ [x]

/-- Keep at most `k` elements, replacing the top by a lesser newcomer. -/
def offer [DecidableRel less] (k : Nat) (h : impl.State) (x : α) : impl.State :=
  if (impl.items h).length < k then impl.push h x
  else match impl.top h with
    | none => h
    | some top => if less x top then impl.push (impl.pop h) x else h

theorem drain_perm (n : Nat) (h : impl.State) (hn : (impl.items h).length = n) :
    (impl.drain n h).Perm (impl.items h) := by
  induction n generalizing h with
  | zero => rw [List.length_eq_zero_iff.mp hn, drain]
  | succ n ih =>
      cases htop : impl.top h with
      | none => rw [impl.top_eq_none h htop, drain, htop]
      | some x =>
          have hpop := impl.pop_perm h x htop
          have hlen := hpop.length_eq
          rw [hn, List.length_cons] at hlen
          simp only [drain, htop]
          exact (((ih (impl.pop h) (by omega)).append_right [x]).trans
            (List.perm_append_singleton x _)).trans hpop.symm

theorem drain_pairwise (n : Nat) (h : impl.State) (hn : (impl.items h).length = n) (hvalid : impl.Valid h) :
    (impl.drain n h).Pairwise fun x y => ¬ less y x := by
  induction n generalizing h with
  | zero => exact List.Pairwise.nil
  | succ n ih =>
      cases htop : impl.top h with
      | none => simp only [drain, htop, List.Pairwise.nil]
      | some x =>
          have hpop := impl.pop_perm h x htop
          have hlen : (impl.items (impl.pop h)).length = n := by
            have hlen := hpop.length_eq
            rw [hn, List.length_cons] at hlen
            omega
          simp only [drain, htop]
          refine List.pairwise_append.mpr
            ⟨ih (impl.pop h) hlen (impl.valid_pop h hvalid), List.pairwise_singleton _ _, fun y hy z hz => ?_⟩
          rw [List.mem_singleton.mp hz]
          refine impl.top_max h x hvalid htop y (hpop.mem_iff.mpr (List.mem_cons_of_mem x ?_))
          exact (impl.drain_perm n (impl.pop h) hlen).mem_iff.mp hy

/-! ### Selection -/

variable {impl} {k : Nat}

/-- The state of a scan that has been offered `seen`: the heap is in order and holds the least of them. -/
structure Selects (impl : Impl α less) (S : α → Prop) (k : Nat) (seen : List α) (h : impl.State) : Prop where
  valid : impl.Valid h
  good : ∀ x ∈ seen, S x
  length_eq : (impl.items h).length = min k seen.length
  split : ∃ dropped, seen.Perm (impl.items h ++ dropped) ∧ ∀ x ∈ impl.items h, ∀ y ∈ dropped, ¬ less y x

variable {S : α → Prop} {seen : List α} {h : impl.State}

theorem Selects.items_subset (hsel : Selects impl S k seen h) {x : α} (hx : x ∈ impl.items h) : S x := by
  obtain ⟨dropped, hperm, -⟩ := hsel.split
  exact hsel.good x (hperm.mem_iff.mpr (List.mem_append_left _ hx))

theorem selects_empty (impl : Impl α less) (S : α → Prop) (k : Nat) : Selects impl S k [] impl.empty where
  valid := impl.valid_empty
  good x hx := absurd hx List.not_mem_nil
  length_eq := by rw [impl.items_empty, List.length_nil, Nat.min_zero]
  split := ⟨[], by rw [impl.items_empty, List.append_nil],
    fun x hx => absurd (impl.items_empty ▸ hx) List.not_mem_nil⟩

theorem Selects.offer_room (hS : WeakOrderOn less S) (hsel : Selects impl S k seen h) {x : α} (hx : S x)
    (hlt : (impl.items h).length < k) : Selects impl S k (x :: seen) (impl.push h x) where
  valid := by
    refine impl.valid_push h x hsel.valid (hS.mono fun y hy => ?_)
    rcases List.mem_cons.mp hy with rfl | hy
    · exact hx
    · exact hsel.items_subset hy
  good := List.forall_mem_cons.mpr ⟨hx, hsel.good⟩
  length_eq := by
    have hlen := hsel.length_eq
    rw [(impl.push_perm h x).length_eq, List.length_cons, List.length_cons]
    omega
  split := by
    -- a heap that is not full has dropped nothing
    obtain ⟨dropped, hperm, -⟩ := hsel.split
    have hnone : dropped = [] := by
      have hlen := hperm.length_eq
      have hfull := hsel.length_eq
      rw [List.length_append] at hlen
      exact List.length_eq_zero_iff.mp (by omega)
    subst hnone
    rw [List.append_nil] at hperm
    refine ⟨[], ?_, fun _ _ y hy => absurd hy List.not_mem_nil⟩
    rw [List.append_nil]
    exact (hperm.cons x).trans (impl.push_perm h x).symm

theorem Selects.offer_replace (hS : WeakOrderOn less S) (hsel : Selects impl S k seen h) {x top : α}
    (hx : S x)
    (hfull : ¬ (impl.items h).length < k) (htop : impl.top h = some top) (hless : less x top) :
    Selects impl S k (x :: seen) (impl.push (impl.pop h) x) := by
  have hpop := impl.pop_perm h top htop
  have hpush := impl.push_perm (impl.pop h) x
  have hrest : ∀ y ∈ impl.items (impl.pop h), y ∈ impl.items h :=
    fun y hy => hpop.mem_iff.mpr (List.mem_cons_of_mem top hy)
  have htopmem : top ∈ impl.items h := hpop.mem_iff.mpr List.mem_cons_self
  have hbelow : ¬ less top x := hS.asymm x top hx (hsel.items_subset htopmem) hless
  obtain ⟨dropped, hperm, hle⟩ := hsel.split
  have hdropped : ∀ z ∈ dropped, S z :=
    fun z hz => hsel.good z (hperm.mem_iff.mpr (List.mem_append_right _ hz))
  refine ⟨?_, List.forall_mem_cons.mpr ⟨hx, hsel.good⟩, ?_, top :: dropped, ?_, fun y hy z hz => ?_⟩
  · refine impl.valid_push _ x (impl.valid_pop h hsel.valid) (hS.mono fun y hy => ?_)
    rcases List.mem_cons.mp hy with rfl | hy
    · exact hx
    · exact hsel.items_subset (hrest y hy)
  · have hlen := hsel.length_eq
    have hlen' := hpop.length_eq
    rw [List.length_cons] at hlen'
    rw [hpush.length_eq, List.length_cons, List.length_cons]
    omega
  · calc x :: seen
        |>.Perm (x :: (impl.items h ++ dropped)) := hperm.cons x
      _ |>.Perm (x :: (top :: impl.items (impl.pop h) ++ dropped)) := (hpop.append_right dropped).cons x
      _ |>.Perm (x :: impl.items (impl.pop h) ++ top :: dropped) := List.perm_middle.symm.cons x
      _ |>.Perm (impl.items (impl.push (impl.pop h) x) ++ top :: dropped) := hpush.symm.append_right _
  · rcases List.mem_cons.mp (hpush.mem_iff.mp hy) with rfl | hy
    · rcases List.mem_cons.mp hz with rfl | hz
      · exact hbelow
      · exact hS.trans z top y (hdropped z hz) (hsel.items_subset htopmem) hx (hle top htopmem z hz) hbelow
    · rcases List.mem_cons.mp hz with rfl | hz
      · exact impl.top_max h z hsel.valid htop y (hrest y hy)
      · exact hle y (hrest y hy) z hz

theorem Selects.offer_drop (hS : WeakOrderOn less S) (hsel : Selects impl S k seen h) {x : α} (hx : S x)
    (hfull : ¬ (impl.items h).length < k) (hless : ∀ top, impl.top h = some top → ¬ less x top) :
    Selects impl S k (x :: seen) h := by
  obtain ⟨dropped, hperm, hle⟩ := hsel.split
  refine ⟨hsel.valid, List.forall_mem_cons.mpr ⟨hx, hsel.good⟩, ?_, x :: dropped,
    (hperm.cons x).trans List.perm_middle.symm, fun y hy z hz => ?_⟩
  · have hlen := hsel.length_eq
    rw [List.length_cons]
    omega
  · rcases List.mem_cons.mp hz with rfl | hz
    · cases htop : impl.top h with
      | none =>
          rw [impl.top_eq_none h htop] at hy
          exact absurd hy List.not_mem_nil
      | some top =>
          have htopmem : top ∈ impl.items h := (impl.pop_perm h top htop).mem_iff.mpr List.mem_cons_self
          exact hS.trans z top y hx (hsel.items_subset htopmem) (hsel.items_subset hy) (hless top htop)
            (impl.top_max h top hsel.valid htop y hy)
    · exact hle y hy z hz

theorem Selects.of_perm {seen' : List α} (hsel : Selects impl S k seen h) (hperm : seen'.Perm seen) :
    Selects impl S k seen' h where
  valid := hsel.valid
  good x hx := hsel.good x (hperm.mem_iff.mp hx)
  length_eq := by rw [hperm.length_eq, hsel.length_eq]
  split := by
    obtain ⟨dropped, hsplit, hle⟩ := hsel.split
    exact ⟨dropped, hperm.trans hsplit, hle⟩

/-- Emptied, the heap gives the least of what was offered, in order. -/
theorem Selects.drain (hsel : Selects impl S k seen h) :
    ∃ dropped, seen.Perm (impl.drain (impl.items h).length h ++ dropped) ∧
      (∀ x ∈ impl.drain (impl.items h).length h, ∀ y ∈ dropped, ¬ less y x) ∧
      (impl.drain (impl.items h).length h).Pairwise (fun x y => ¬ less y x) ∧
      (impl.drain (impl.items h).length h).length = min k seen.length := by
  have hperm := impl.drain_perm _ h rfl
  obtain ⟨dropped, hsplit, hle⟩ := hsel.split
  refine ⟨dropped, hsplit.trans (hperm.symm.append_right dropped), fun x hx => ?_,
    impl.drain_pairwise _ h rfl hsel.valid, ?_⟩
  · exact hle x (hperm.mem_iff.mp hx)
  · rw [hperm.length_eq, hsel.length_eq]

/-! ### Offers -/

variable [DecidableRel less]

theorem offer_of_length_lt (hlt : (impl.items h).length < k) (x : α) :
    impl.offer k h x = impl.push h x := if_pos hlt

theorem offer_full (h : impl.State) (x : α) (hfull : ¬ (impl.items h).length < k) :
    (∃ top, impl.top h = some top ∧ less x top ∧ impl.offer k h x = impl.push (impl.pop h) x) ∨
      ((∀ top, impl.top h = some top → ¬ less x top) ∧ impl.offer k h x = h) := by
  rw [offer, if_neg hfull]
  cases htop : impl.top h with
  | none => simp
  | some top =>
      dsimp only
      split_ifs with hless
      · exact .inl ⟨top, rfl, hless, rfl⟩
      · refine .inr ⟨fun top' heq => ?_, rfl⟩
        cases heq
        exact hless

/-- What no other element is less than never leaves the heap. -/
theorem mem_offer {odd : α} (hodd : ∀ y, ¬ less y odd) (hmem : odd ∈ impl.items h) (x : α) :
    odd ∈ impl.items (impl.offer k h x) := by
  by_cases hlt : (impl.items h).length < k
  · rw [offer_of_length_lt hlt]
    exact (impl.push_perm h x).mem_iff.mpr (List.mem_cons_of_mem x hmem)
  · rcases offer_full h x hlt with ⟨top, htop, hless, heq⟩ | ⟨-, heq⟩
    · rw [heq]
      refine (impl.push_perm _ x).mem_iff.mpr (List.mem_cons_of_mem x ?_)
      rcases List.mem_cons.mp ((impl.pop_perm h top htop).mem_iff.mp hmem) with rfl | hrest
      · exact absurd hless (hodd x)
      · exact hrest
    · rwa [heq]

theorem mem_foldl_offer {odd : α} (hodd : ∀ y, ¬ less y odd) (hmem : odd ∈ impl.items h) (xs : List α) :
    odd ∈ impl.items (xs.foldl (impl.offer k) h) := by
  induction xs generalizing h with
  | nil => exact hmem
  | cons x xs ih => exact ih (mem_offer hodd hmem x)

theorem perm_foldl_offer (xs : List α) (h : impl.State) (hroom : (impl.items h).length + xs.length ≤ k) :
    (impl.items (xs.foldl (impl.offer k) h)).Perm (impl.items h ++ xs) := by
  induction xs generalizing h with
  | nil => simp
  | cons x xs ih =>
      rw [List.length_cons] at hroom
      have hpush := impl.push_perm h x
      rw [List.foldl_cons, offer_of_length_lt (by omega)]
      have hrest := ih (impl.push h x) (by rw [hpush.length_eq, List.length_cons]; omega)
      exact hrest.trans ((hpush.append_right xs).trans List.perm_middle.symm)

theorem Selects.offer (hS : WeakOrderOn less S) (hsel : Selects impl S k seen h) {x : α} (hx : S x) :
    Selects impl S k (x :: seen) (impl.offer k h x) := by
  by_cases hlt : (impl.items h).length < k
  · rw [offer_of_length_lt hlt]
    exact hsel.offer_room hS hx hlt
  · rcases offer_full h x hlt with ⟨top, htop, hless, heq⟩ | ⟨hless, heq⟩
    · rw [heq]
      exact hsel.offer_replace hS hx hlt htop hless
    · rw [heq]
      exact hsel.offer_drop hS hx hlt hless

theorem offer_odd {x : α} (hodd : ∀ y, ¬ less x y) (hfull : ¬ (impl.items h).length < k) :
    impl.offer k h x = h := by
  rcases offer_full h x hfull with ⟨top, -, hless, -⟩ | ⟨-, heq⟩
  · exact absurd hless (hodd top)
  · exact heq

/-- A scan whose heap is full: what is below nothing is passed by, and of the rest the least are kept. -/
theorem Selects.foldl_offer [DecidablePred S] (hS : WeakOrderOn less S) (xs : List α)
    (hodd : ∀ x ∈ xs, ¬ S x → ∀ y, ¬ less x y) (hsel : Selects impl S k seen h)
    (hfull : k ≤ seen.length ∨ ∀ x ∈ xs, S x) :
    Selects impl S k (seen ++ xs.filter S) (xs.foldl (impl.offer k) h) := by
  induction xs generalizing seen h with
  | nil => simpa using hsel
  | cons x xs ih =>
      obtain ⟨hx, hodd⟩ := List.forall_mem_cons.mp hodd
      rw [List.foldl_cons]
      by_cases hgood : S x
      · rw [List.filter_cons_of_pos (by simpa using hgood)]
        refine (ih hodd (hsel.offer hS hgood) ?_).of_perm List.perm_middle
        rcases hfull with hfull | hall
        · exact .inl (hfull.trans (Nat.le_succ _))
        · exact .inr fun y hy => hall y (List.mem_cons_of_mem x hy)
      · rw [List.filter_cons_of_neg (by simpa using hgood)]
        have hfull' : k ≤ seen.length := hfull.resolve_right fun hall => hgood (hall x List.mem_cons_self)
        have hlen := hsel.length_eq
        rw [offer_odd (hx hgood) (by omega)]
        exact ih hodd hsel (.inl hfull')

/-- Whatever is among the first `k` offers and has none below it is in the heap at the end. -/
theorem mem_foldl_of_take (impl : Impl α less) {odd : α} (hodd : ∀ y, ¬ less y odd) {xs : List α}
    (hmem : odd ∈ xs.take k) :
    odd ∈ impl.items (xs.foldl (impl.offer k) impl.empty) := by
  have hroom : (impl.items impl.empty).length + (xs.take k).length ≤ k := by
    rw [impl.items_empty, List.length_nil, Nat.zero_add]
    exact List.length_take_le k xs
  have hfirst := perm_foldl_offer (xs.take k) impl.empty hroom
  rw [impl.items_empty, List.nil_append] at hfirst
  rw [← List.take_append_drop k xs, List.foldl_append]
  exact mem_foldl_offer hodd (hfirst.mem_iff.mpr hmem) (xs.drop k)

/-- A scan whose first `k` offers are in order keeps the least of all that are. -/
theorem selects_foldl [DecidablePred S] (impl : Impl α less) (hS : WeakOrderOn less S) {xs : List α}
    (hodd : ∀ x ∈ xs, ¬ S x → ∀ y, ¬ less x y) (hfirst : ∀ x ∈ xs.take k, S x) (hlen : k ≤ xs.length) :
    Selects impl S k (xs.filter S) (xs.foldl (impl.offer k) impl.empty) := by
  have hself : (xs.take k).filter S = xs.take k :=
    List.filter_eq_self.mpr fun x hx => decide_eq_true (hfirst x hx)
  have hsel := (selects_empty impl S k).foldl_offer hS (xs.take k)
    (fun x hx hgood => absurd (hfirst x hx) hgood) (.inr hfirst)
  rw [List.nil_append, hself] at hsel
  have hfull : k ≤ (xs.take k).length := by rw [List.length_take, Nat.min_eq_left hlen]
  have hall := hsel.foldl_offer hS (xs.drop k) (fun x hx => hodd x (List.mem_of_mem_drop hx)) (.inl hfull)
  have hsplit : xs.take k ++ (xs.drop k).filter S = xs.filter S := by
    conv_rhs => rw [← List.take_append_drop k xs, List.filter_append, hself]
  rwa [← List.foldl_append, List.take_append_drop, hsplit] at hall

/-! ### Sorted lists -/

theorem pairwise_push {q : List α} {x : α} (hq : q.Pairwise fun a b => ¬ less a b)
    (hS : WeakOrderOn less fun y => y ∈ x :: q) :
    (PriorityQueue.push less q x).Pairwise fun a b => ¬ less a b := by
  rw [PriorityQueue.push]
  induction q with
  | nil => simp
  | cons y q ih =>
      rw [List.orderedInsert]
      split_ifs with hxy
      · have hyx : ¬ less y x := hS.asymm x y (by simp) (by simp) hxy
        refine List.pairwise_cons.mpr ⟨fun z hz => ?_, ih hq.of_cons (hS.mono fun z hz => ?_)⟩
        · rcases (List.mem_orderedInsert _).mp hz with rfl | hz
          · exact hyx
          · exact List.rel_of_pairwise_cons hq hz
        · rcases List.mem_cons.mp hz with rfl | hz
          · exact List.mem_cons_self
          · exact List.mem_cons_of_mem _ (List.mem_cons_of_mem _ hz)
      · refine List.pairwise_cons.mpr ⟨fun z hz => ?_, hq⟩
        rcases List.mem_cons.mp hz with rfl | hz
        · exact hxy
        · exact hS.trans x y z (by simp) (by simp) (by simp [hz]) hxy (List.rel_of_pairwise_cons hq hz)

/-- The queue that is kept as a list with its top first. -/
def sorted (less : α → α → Prop) [DecidableRel less] : Impl α less where
  State := List α
  empty := []
  push := PriorityQueue.push less
  top := List.head?
  pop := List.tail
  items := id
  Valid q := (q.Pairwise fun a b => ¬ less a b) ∧ ∀ x ∈ q, ¬ less x x
  items_empty := rfl
  push_perm := PriorityQueue.push_perm less
  top_eq_none h := List.head?_eq_none_iff.mp
  pop_perm h x htop := by
    obtain ⟨rest, rfl⟩ := List.head?_eq_some_iff.mp htop
    exact List.Perm.refl _
  valid_empty := ⟨List.Pairwise.nil, fun _ hx => absurd hx List.not_mem_nil⟩
  valid_push h x hvalid hS := by
    refine ⟨pairwise_push hvalid.1 hS, fun y hy => hS.irrefl ?_⟩
    rcases (PriorityQueue.mem_push less).mp hy with rfl | hy
    · exact List.mem_cons_self
    · exact List.mem_cons_of_mem x hy
  valid_pop h hvalid := ⟨hvalid.1.tail, fun x hx => hvalid.2 x (List.mem_of_mem_tail hx)⟩
  top_max h x hvalid htop y hy := by
    obtain ⟨rest, rfl⟩ := List.head?_eq_some_iff.mp htop
    rcases List.mem_cons.mp hy with rfl | hy
    · exact hvalid.2 y List.mem_cons_self
    · exact List.rel_of_pairwise_cons hvalid.1 hy

theorem sorted_offer (less : α → α → Prop) [DecidableRel less] (k : Nat) (q : List α) (x : α) :
    (sorted less).offer k q x = PriorityQueue.offer less k q x := by
  cases q <;> rfl

theorem sorted_drain (less : α → α → Prop) [DecidableRel less] (q : List α) :
    (sorted less).drain q.length q = q.reverse := by
  induction q with
  | nil => rfl
  | cons x q ih =>
      rw [List.reverse_cons, ← ih]
      rfl

/-! ### Queues ordered by a key -/

theorem weakOrderOn_key {κ : Type} [LinearOrder κ] (key : α → κ) (S : α → Prop) :
    WeakOrderOn (fun a b => key a < key b) S where
  asymm _ _ _ _ := lt_asymm
  trans _ _ _ _ _ _ hxy hyz := not_lt.mpr ((not_lt.mp hyz).trans (not_lt.mp hxy))

theorem keeps_foldl {κ : Type} [LinearOrder κ] (key : α → κ) (k : Nat) (xs : List α) :
    PriorityQueue.Keeps key k xs (xs.foldl (PriorityQueue.offer (fun a b => key a < key b) k) []) := by
  have hoffer : (sorted fun a b => key a < key b).offer k = PriorityQueue.offer
      (fun a b => key a < key b) k := by
    funext q x
    exact sorted_offer _ k q x
  have hsel := (selects_empty (sorted fun a b => key a < key b) (fun _ => True) k).foldl_offer
    (weakOrderOn_key key _) xs (fun x _ hx => absurd trivial hx) (.inr fun _ _ => trivial)
  rw [hoffer, List.nil_append, List.filter_eq_self.mpr fun _ _ => decide_eq_true trivial] at hsel
  obtain ⟨dropped, hperm, hle⟩ := hsel.split
  exact ⟨hsel.valid.1.imp not_lt.mp, hsel.length_eq, dropped, hperm,
    fun x hx y hy => not_lt.mp (hle x hx y hy)⟩

end Impl

end Heap
