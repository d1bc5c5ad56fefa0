import Mathlib.Tactic.Common

/-!
# Readers over a byte string

A reader consumes a prefix of its input and may fail. `Reads d bs a` says that `d` consumes exactly
`bs`, whatever comes after, and returns `a`: the form in which a round trip composes, field by field,
along `>>=`.

`Accepts d R` is the converse as well: `d` returns `a` exactly where a text of `a` stands at the front of
the input, the texts being given by the relation `R`. It composes along `>>=` too, so what a whole parser
accepts is read off the texts of its fields.
-/

namespace Reading

variable {β ε α γ : Type}

/-- A computation over the unread part of an input. -/
abbrev Reader (β ε α : Type) := StateT (List β) (Except ε) α

/-- Take the next `n` elements, or fail when fewer are left. -/
def take (err : ε) (n : Nat) : Reader β ε (List β) := fun s =>
  if s.length < n then .error err else .ok (s.take n, s.drop n)

/-- The reader consumes exactly `bs` and returns `a`, whatever follows. -/
def Reads (d : Reader β ε α) (bs : List β) (a : α) : Prop := ∀ rest, d.run (bs ++ rest) = .ok (a, rest)

theorem Reads.pure (a : α) : Reads (pure a : Reader β ε α) [] a := fun _ => rfl

theorem Reads.bind {d : Reader β ε α} {f : α → Reader β ε γ} {xs ys : List β} {a : α} {c : γ}
    (hd : Reads d xs a) (hf : Reads (f a) ys c) : Reads (d >>= f) (xs ++ ys) c := by
  intro rest
  rw [StateT.run_bind, List.append_assoc, hd (ys ++ rest)]
  exact hf rest

theorem Reads.bind_nil {d : Reader β ε α} {f : α → Reader β ε γ} {xs : List β} {a : α} {c : γ}
    (hd : Reads d xs a) (hf : Reads (f a) [] c) : Reads (d >>= f) xs c := by
  simpa only [List.append_nil] using hd.bind hf

theorem reads_take (err : ε) {n : Nat} {bs : List β} (h : bs.length = n) : Reads (take err n) bs bs := by
  intro rest
  have hlen : ¬ (bs ++ rest).length < n := by
    rw [List.length_append, h]
    omega
  change (if (bs ++ rest).length < n then _ else _) = _
  rw [if_neg hlen, List.take_left' h, List.drop_left' h]

theorem Reads.run_all {d : Reader β ε α} {bs : List β} {a : α} (h : Reads d bs a) :
    d.run bs = .ok (a, []) := by
  simpa only [List.append_nil] using h []

/-! ### What a reader accepts -/

/-- The reader returns `a` exactly where a text of `a` comes first, and leaves what follows it. -/
def Accepts (d : Reader β ε α) (R : α → List β → Prop) : Prop :=
  ∀ s a rest, d.run s = .ok (a, rest) ↔ ∃ bs, R a bs ∧ s = bs ++ rest

theorem Accepts.congr {d : Reader β ε α} {R R' : α → List β → Prop} (hd : Accepts d R)
    (h : ∀ a bs, R a bs ↔ R' a bs) : Accepts d R' := by
  intro s a rest
  simp only [hd s a rest, h]

theorem accepts_pure (a : α) : Accepts (pure a : Reader β ε α) fun a' bs => a' = a ∧ bs = [] := by
  intro s a' rest
  have hrun : (pure a : Reader β ε α).run s = .ok (a, s) := rfl
  rw [hrun]
  constructor
  · intro heq
    cases heq
    exact ⟨[], ⟨rfl, rfl⟩, rfl⟩
  · rintro ⟨bs, ⟨rfl, rfl⟩, rfl⟩
    rfl

theorem accepts_throw (err : ε) : Accepts (throw err : Reader β ε α) fun _ _ => False := by
  intro s a rest
  constructor
  · intro heq
    cases heq
  · rintro ⟨bs, hfalse, -⟩
    exact hfalse.elim

theorem accepts_take (err : ε) (n : Nat) :
    Accepts (take err n : Reader β ε (List β)) fun a bs => bs = a ∧ a.length = n := by
  intro s a rest
  change (if s.length < n then Except.error err else .ok (s.take n, s.drop n)) = _ ↔ _
  split_ifs with hshort
  · constructor
    · intro heq
      cases heq
    · rintro ⟨bs, ⟨rfl, hlen⟩, rfl⟩
      rw [List.length_append] at hshort
      omega
  · constructor
    · intro heq
      cases heq
      exact ⟨s.take n, ⟨rfl, List.length_take_of_le (by omega)⟩, (List.take_append_drop n s).symm⟩
    · rintro ⟨bs, ⟨rfl, hlen⟩, rfl⟩
      rw [List.take_left' hlen, List.drop_left' hlen]

/-- A text of the first reader and behind it one of the second. The second is only run on what the first
returns. -/
theorem Accepts.bind_of {d : Reader β ε α} {f : α → Reader β ε γ} {R : α → List β → Prop}
    {S : α → γ → List β → Prop} (hd : Accepts d R) (hf : ∀ a xs, R a xs → Accepts (f a) (S a)) :
    Accepts (d >>= f) fun c bs => ∃ a xs ys, R a xs ∧ S a c ys ∧ bs = xs ++ ys := by
  intro s c rest
  rw [StateT.run_bind]
  constructor
  · intro hrun
    cases hfirst : d.run s with
    | error err =>
        rw [hfirst] at hrun
        cases hrun
    | ok r =>
        obtain ⟨a, s'⟩ := r
        rw [hfirst] at hrun
        obtain ⟨xs, hR, rfl⟩ := (hd s a s').mp hfirst
        obtain ⟨ys, hS, rfl⟩ := (hf a xs hR s' c rest).mp hrun
        exact ⟨xs ++ ys, ⟨a, xs, ys, hR, hS, rfl⟩, (List.append_assoc ..).symm⟩
  · rintro ⟨bs, ⟨a, xs, ys, hR, hS, rfl⟩, rfl⟩
    rw [List.append_assoc, (hd (xs ++ (ys ++ rest)) a (ys ++ rest)).mpr ⟨xs, hR, rfl⟩]
    exact (hf a xs hR (ys ++ rest) c rest).mpr ⟨ys, hS, rfl⟩

theorem Accepts.bind {d : Reader β ε α} {f : α → Reader β ε γ} {R : α → List β → Prop}
    {S : α → γ → List β → Prop} (hd : Accepts d R) (hf : ∀ a, Accepts (f a) (S a)) :
    Accepts (d >>= f) fun c bs => ∃ a xs ys, R a xs ∧ S a c ys ∧ bs = xs ++ ys :=
  hd.bind_of fun a _ _ => hf a

theorem Accepts.map {d : Reader β ε α} {R : α → List β → Prop} (hd : Accepts d R) (g : α → γ) :
    Accepts (g <$> d) fun c bs => ∃ a, R a bs ∧ c = g a := by
  rw [map_eq_pure_bind]
  refine (hd.bind fun a => accepts_pure (g a)).congr fun c bs => ?_
  constructor
  · rintro ⟨a, xs, ys, hR, ⟨rfl, rfl⟩, rfl⟩
    rw [List.append_nil]
    exact ⟨a, hR, rfl⟩
  · rintro ⟨a, hR, rfl⟩
    exact ⟨a, bs, [], hR, ⟨rfl, rfl⟩, (List.append_nil bs).symm⟩

/-- More input behind what was read changes nothing but what is left. -/
theorem Accepts.run_append {d : Reader β ε α} {R : α → List β → Prop} (hd : Accepts d R)
    {s rest : List β} {a : α}
    (hrun : d.run s = .ok (a, rest)) (more : List β) : d.run (s ++ more) = .ok (a, rest ++ more) := by
  obtain ⟨bs, hR, rfl⟩ := (hd s a rest).mp hrun
  exact (hd _ _ _).mpr ⟨bs, hR, List.append_assoc ..⟩

/-- No text of a value is a text of another one with something behind it. -/
theorem Accepts.unique {d : Reader β ε α} {R : α → List β → Prop} (hd : Accepts d R) {a a' : α}
    {bs bs' rest rest' : List β}
    (hR : R a bs) (hR' : R a' bs') (heq : bs ++ rest = bs' ++ rest') : a = a' ∧ rest = rest' := by
  have hrun := (hd (bs ++ rest) a rest).mpr ⟨bs, hR, rfl⟩
  rw [(hd (bs ++ rest) a' rest').mpr ⟨bs', hR', heq⟩] at hrun
  cases hrun
  exact ⟨rfl, rfl⟩

/-! ### How a reader fails -/

/-- Every failure of the reader satisfies `P`. -/
def FailsOnly (P : ε → Prop) (d : Reader β ε α) : Prop := ∀ s err, d.run s = .error err → P err

theorem failsOnly_pure (P : ε → Prop) (a : α) : FailsOnly P (pure a : Reader β ε α) :=
  fun _ _ heq => by cases heq

theorem failsOnly_throw {P : ε → Prop} {err : ε} (h : P err) : FailsOnly P (throw err : Reader β ε α) := by
  intro s err' heq
  cases heq
  exact h

theorem failsOnly_take {P : ε → Prop} {err : ε} (h : P err) (n : Nat) :
    FailsOnly P (take err n : Reader β ε (List β)) := by
  intro s err' heq
  change (if s.length < n then Except.error err else .ok (s.take n, s.drop n)) = _ at heq
  split_ifs at heq
  cases heq
  exact h

theorem FailsOnly.bind {P : ε → Prop} {d : Reader β ε α} {f : α → Reader β ε γ} (hd : FailsOnly P d)
    (hf : ∀ a, FailsOnly P (f a)) : FailsOnly P (d >>= f) := by
  intro s err heq
  rw [StateT.run_bind] at heq
  cases hfirst : d.run s with
  | error err' =>
      rw [hfirst] at heq
      cases heq
      exact hd s err hfirst
  | ok r =>
      rw [hfirst] at heq
      exact hf r.1 r.2 err heq

end Reading
