import Mathlib.Tactic.Common

/-!
# Sequences of frames

A file of self-delimiting frames is read by taking frames off the front until what is left is not one. The
reader is given fuel; as every frame has at least one symbol, the length of the file is always enough.
-/

namespace Framing

variable {α β : Type}

/-- Take items off the front for as long as there is one. -/
def parse (next : List β → Option (α × List β)) : Nat → List β → List α
  | 0, _ => []
  | fuel + 1, bs =>
    match next bs with
    | none => []
    | some (item, rest) => item :: parse next fuel rest

variable {next : List β → Option (α × List β)} {frame : α → List β}

theorem parse_of_none {bs : List β} (h : next bs = none) (fuel : Nat) : parse next fuel bs = [] := by
  cases fuel with
  | zero => rfl
  | succ fuel => rw [parse, h]

theorem parse_frames (items : List α) (hnext : ∀ a ∈ items, ∀ rest, next (frame a ++ rest) = some (a, rest))
    (tail : List β) {fuel : Nat} (hfuel : items.length ≤ fuel) :
    parse next fuel (items.flatMap frame ++ tail) = items ++ parse next (fuel - items.length) tail := by
  induction items generalizing fuel with
  | nil => rfl
  | cons a items ih =>
      obtain ⟨ha, hitems⟩ := List.forall_mem_cons.mp hnext
      obtain ⟨fuel, rfl⟩ : ∃ n, fuel = n + 1 := ⟨fuel - 1, by rw [List.length_cons] at hfuel; omega⟩
      rw [List.length_cons, Nat.add_le_add_iff_right] at hfuel
      rw [List.flatMap_cons, List.append_assoc, parse, ha]
      simp only [ih hitems hfuel, List.cons_append, List.length_cons, Nat.add_sub_add_right]

theorem length_le_flatMap (items : List α) (hpos : ∀ a, 0 < (frame a).length) :
    items.length ≤ (items.flatMap frame).length := by
  induction items with
  | nil => exact Nat.le_refl 0
  | cons a items ih =>
      have ha := hpos a
      rw [List.flatMap_cons, List.length_append, List.length_cons]
      omega

/-- A file of frames, with something behind them that is none, is read back exactly. -/
theorem parse_file (items : List α) (hnext : ∀ a ∈ items, ∀ rest, next (frame a ++ rest) = some (a, rest))
    (hpos : ∀ a, 0 < (frame a).length) {tail : List β} (htail : next tail = none) :
    parse next (items.flatMap frame ++ tail).length (items.flatMap frame ++ tail) = items := by
  have hlen := length_le_flatMap items hpos
  rw [parse_frames items hnext tail (by rw [List.length_append]; omega), parse_of_none htail, List.append_nil]

/-! ### Cut files -/

/-- Where the i-th frame of a file begins, and the one before it ends. -/
def offset (frame : α → List β) (items : List α) (i : Nat) : Nat := ((items.take i).flatMap frame).length

theorem offset_succ_cons (a : α) (items : List α) (i : Nat) :
    offset frame (a :: items) (i + 1) = (frame a).length + offset frame items i := by
  simp [offset]

/-- A file that is cut somewhere is the frames in front of the cut and a piece of the next one. -/
theorem take_flatMap (frame : α → List β) (items : List α) (n : Nat) :
    ∃ m torn, (items.flatMap frame).take n = (items.take m).flatMap frame ++ torn ∧
      (torn = [] ∨ ∃ a ∈ items, torn <+: frame a ∧ torn ≠ frame a) ∧
      ∀ i, i < items.length → (i < m ↔ offset frame items (i + 1) ≤ n) := by
  induction items generalizing n with
  | nil => exact ⟨0, [], by simp, .inl rfl, fun i hi => absurd hi (Nat.not_lt_zero i)⟩
  | cons a items ih =>
      by_cases hn : (frame a).length ≤ n
      · obtain ⟨m, torn, hsplit, htorn, hm⟩ := ih (n - (frame a).length)
        refine ⟨m + 1, torn, ?_, ?_, fun i hi => ?_⟩
        · rw [List.flatMap_cons, List.take_append, List.take_of_length_le hn, hsplit, List.take_succ_cons,
            List.flatMap_cons, List.append_assoc]
        · exact htorn.imp_right fun ⟨b, hb, hpiece⟩ => ⟨b, List.mem_cons_of_mem _ hb, hpiece⟩
        · rw [offset_succ_cons]
          cases i with
          | zero => simpa [offset] using hn
          | succ i =>
              have hi' := hm i (by simpa using hi)
              omega
      · -- the cut is inside the first frame
        have hcut := Nat.lt_of_not_le hn
        refine ⟨0, (frame a).take n, ?_,
          .inr ⟨a, List.mem_cons_self, List.take_prefix n _, fun heq => ?_⟩, fun i _ => ?_⟩
        · rw [List.flatMap_cons, List.take_append_of_le_length (Nat.le_of_lt hcut)]
          rfl
        · have hlen := congrArg List.length heq
          rw [List.length_take] at hlen
          omega
        · rw [offset_succ_cons]
          omega

theorem parse_take (items : List α) (hnext : ∀ a ∈ items, ∀ rest, next (frame a ++ rest) = some (a, rest))
    (hpos : ∀ a, 0 < (frame a).length) (hend : next [] = none)
    (htorn : ∀ a ∈ items, ∀ torn, torn <+: frame a → torn ≠ frame a → next torn = none) (n : Nat) :
    ∃ m, parse next ((items.flatMap frame).take n).length ((items.flatMap frame).take n) = items.take m ∧
      ∀ i, i < items.length → (i < m ↔ offset frame items (i + 1) ≤ n) := by
  obtain ⟨m, torn, hsplit, hpiece, hm⟩ := take_flatMap frame items n
  have hnone : next torn = none := by
    rcases hpiece with rfl | ⟨a, ha, hpre, hne⟩
    · exact hend
    · exact htorn a ha torn hpre hne
  refine ⟨m, ?_, hm⟩
  rw [hsplit]
  exact parse_file (items.take m) (fun a ha => hnext a (List.mem_of_mem_take ha)) hpos hnone

end Framing
