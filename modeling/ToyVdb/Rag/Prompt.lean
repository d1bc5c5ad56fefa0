import ToyVdb.Rag.Model
import Mathlib.Algebra.BigOperators.Group.List.Basic
import Mathlib.Algebra.Order.BigOperators.Group.List

/-!
# Prompts and their budget

A prompt is the fixed text around the context and the query, and one line for each chunk that still
fits. Room is kept for the query and for `kScaffoldTokens`, and the tokens of the chunks are counted
against the rest. The fixed text has only `promptTokens` of the tokens kept for it, but the bullet in
front of each chunk is a token that is never counted. So the budget holds as long as the bullets fit
into what is left over, and is exceeded as soon as they do not.
-/

namespace ToyVdb

structure PromptBuilder where
  budget : Nat := 512

namespace PromptBuilder

variable {Score : Type}

def kScaffoldTokens : Nat := 24

/-- A line of the context. -/
def bullet (c : RetrievedChunk Score) : Bytes := ascii "- " ++ c.text ++ ascii "\n"

/-- The loop over the chunks, up to the first that does not fit. -/
def addContext (available : Nat) : List (RetrievedChunk Score) → Nat → Bytes → Bytes
  | [], _, context => context
  | c :: rest, used, context =>
    let cost := approxTokens c.text
    if used + cost > available then context else addContext available rest (used + cost) (context ++ bullet c)

def build (b : PromptBuilder) (query : Bytes) (chunks : List (RetrievedChunk Score)) : Bytes :=
  let reserved := approxTokens query + kScaffoldTokens
  let available := if b.budget > reserved then b.budget - reserved else 0
  let context := addContext available chunks 0 []
  ascii "You are a helpful assistant. Answer using only the context below.\n\n" ++
    ascii "Context:\n" ++ context
    ++ ascii "\nQuestion: " ++ query ++ ascii "\nAnswer:"

/-! ### The tokens of a prompt -/

/-- What the first chunks cost together. -/
def cost (chunks : List (RetrievedChunk Score)) (n : Nat) : Nat :=
  ((chunks.take n).map fun c => approxTokens c.text).sum

/-- How many chunks are taken. -/
def taken (available : Nat) : List (RetrievedChunk Score) → Nat → Nat
  | [], _ => 0
  | c :: rest, used =>
    if used + approxTokens c.text > available then 0
    else taken available rest (used + approxTokens c.text) + 1

theorem addContext_eq (available : Nat) (chunks : List (RetrievedChunk Score)) (used : Nat)
    (context : Bytes) :
    addContext available chunks used context
      = context ++ (chunks.take (taken available chunks used)).flatMap bullet := by
  induction chunks generalizing used context with
  | nil => simp [addContext, taken]
  | cons c rest ih =>
      by_cases hfull : used + approxTokens c.text > available
      · simp [addContext, taken, hfull]
      · simp [addContext, taken, hfull, ih]

@[simp]
theorem cost_zero (chunks : List (RetrievedChunk Score)) : cost chunks 0 = 0 := by simp [cost]

@[simp]
theorem cost_cons_succ (c : RetrievedChunk Score) (rest : List (RetrievedChunk Score)) (n : Nat) :
    cost (c :: rest) (n + 1) = approxTokens c.text + cost rest n := by simp [cost]

/-- The chunks that are taken are all that fit, one after the other. -/
theorem le_taken_iff {available used : Nat} (hused : used ≤ available)
    {chunks : List (RetrievedChunk Score)} {n : Nat}
    (hn : n ≤ chunks.length) : n ≤ taken available chunks used ↔ used + cost chunks n ≤ available := by
  induction chunks generalizing used n with
  | nil =>
      obtain rfl : n = 0 := by simpa using hn
      simpa using hused
  | cons c rest ih =>
      cases n with
      | zero => simpa using hused
      | succ n =>
          rw [taken, cost_cons_succ]
          by_cases hfull : used + approxTokens c.text > available
          · rw [if_pos hfull]
            omega
          · rw [if_neg hfull]
            have hused' : used + approxTokens c.text ≤ available := by omega
            have hrest := ih hused' (Nat.le_of_succ_le_succ hn)
            omega

theorem taken_le_length (available : Nat) (chunks : List (RetrievedChunk Score)) (used : Nat) :
    taken available chunks used ≤ chunks.length := by
  induction chunks generalizing used with
  | nil => simp [taken]
  | cons c rest ih =>
      rw [taken]
      split_ifs with hfull
      · exact Nat.zero_le _
      · exact Nat.succ_le_succ (ih _)

theorem cost_mono (chunks : List (RetrievedChunk Score)) {m n : Nat} (hle : m ≤ n) :
    cost chunks m ≤ cost chunks n := by
  induction chunks generalizing m n with
  | nil => simp [cost]
  | cons c rest ih =>
      cases m with
      | zero => simp
      | succ m =>
          obtain ⟨n, rfl⟩ : ∃ n', n = n' + 1 := ⟨n - 1, by omega⟩
          rw [cost_cons_succ, cost_cons_succ]
          exact Nat.add_le_add_left (ih (by omega)) _

theorem bullet_append (c : RetrievedChunk Score) (rest : Bytes) :
    bullet c ++ rest = [45] ++ 32 :: (c.text ++ 10 :: rest) := by
  have hdash : ascii "- " = [45, 32] := by decide
  have hline : ascii "\n" = [10] := by decide
  simp [bullet, hdash, hline]

theorem approxTokens_bullets (chunks : List (RetrievedChunk Score)) (rest : Bytes) :
    approxTokens (chunks.flatMap bullet ++ rest)
      = chunks.length + (chunks.map fun c => approxTokens c.text).sum + approxTokens rest := by
  induction chunks with
  | nil => simp
  | cons c chunks ih =>
      have hone : approxTokens [45] = 1 := by decide
      rw [List.flatMap_cons, List.append_assoc, bullet_append, approxTokens_append_space (by decide),
        approxTokens_append_space (by decide), hone, ih, List.length_cons, List.map_cons, List.sum_cons]
      omega

theorem available_eq (budget reserved : Nat) :
    (if budget > reserved then budget - reserved else 0) = budget - reserved := by split <;> omega

/-- What stands around the context and the query, with the whitespace that separates them. -/
theorem build_eq (b : PromptBuilder) (query : Bytes) (chunks : List (RetrievedChunk Score)) :
    b.build query chunks
      = ascii "You are a helpful assistant. Answer using only the context below.\n\nContext:" ++ 10 ::
        ((chunks.take (taken (b.budget - (approxTokens query + kScaffoldTokens)) chunks 0)).flatMap bullet ++
          ([] ++ 10 :: (ascii "Question:" ++ 32 :: (query ++ 10 :: ascii "Answer:")))) := by
  have hhead : ascii "You are a helpful assistant. Answer using only the context below.\n\n" ++
      ascii "Context:\n" =
        ascii "You are a helpful assistant. Answer using only the context below.\n\nContext:" ++ [10] := by
    decide
  have hquestion : ascii "\nQuestion: " = 10 :: (ascii "Question:" ++ [32]) := by decide
  have hanswer : ascii "\nAnswer:" = 10 :: ascii "Answer:" := by decide
  simp only [build, available_eq, addContext_eq, hhead, hquestion, hanswer]
  simp

/-- The tokens of the fixed text. -/
def promptTokens : Nat := 14

/-- The prompt has the tokens of the fixed text, of the query and of the chunks that are taken, and a bullet
for each of these. -/
theorem approxTokens_build (b : PromptBuilder) (query : Bytes)
    (chunks : List (RetrievedChunk Score)) {n : Nat}
    (hn : n = taken (b.budget - (approxTokens query + kScaffoldTokens)) chunks 0) :
    approxTokens (b.build query chunks) = promptTokens + approxTokens query + (n + cost chunks n) := by
  have hhead : approxTokens
      (ascii "You are a helpful assistant. Answer using only the context below.\n\nContext:") = 12 := by
    decide +kernel
  have hquestion : approxTokens (ascii "Question:") = 1 := by decide
  have hanswer : approxTokens (ascii "Answer:") = 1 := by decide
  have hnil : approxTokens [] = 0 := rfl
  have htaken : (chunks.take n).length = n := by
    rw [List.length_take, hn]
    exact Nat.min_eq_left (taken_le_length _ _ _)
  rw [build_eq, ← hn, approxTokens_append_space (by decide), approxTokens_bullets,
    approxTokens_append_space (by decide), approxTokens_append_space (by decide),
    approxTokens_append_space (by decide), hhead, hquestion, hanswer, hnil, htaken, ← cost, promptTokens]
  omega

/-! ### The budget -/

/-- The chunks that fit leave room for their bullets: there are at most as many of them as tokens are left of
what was kept for the fixed text and of what they could have cost. -/
def BulletsFit (budget : Nat) (query : Bytes) (chunks : List (RetrievedChunk Score)) : Prop :=
  ∀ n ≤ chunks.length, approxTokens query + kScaffoldTokens + cost chunks n ≤ budget →
    approxTokens query + promptTokens + n + cost chunks n ≤ budget

/-- The prompt stays within a budget that has room for the query and the fixed text exactly if the bullets
fit. -/
theorem build_within_budget_iff (budget : Nat) (query : Bytes) (chunks : List (RetrievedChunk Score))
    (hbudget : approxTokens query + kScaffoldTokens ≤ budget) :
    approxTokens ((⟨budget⟩ : PromptBuilder).build query chunks) ≤ budget ↔
      BulletsFit budget query chunks := by
  obtain ⟨n, hn⟩ : ∃ n, n = taken (budget - (approxTokens query + kScaffoldTokens)) chunks 0 := ⟨_, rfl⟩
  have hle : n ≤ chunks.length := hn ▸ taken_le_length _ _ _
  have hcost : approxTokens query + kScaffoldTokens + cost chunks n ≤ budget := by
    have hfits := (le_taken_iff (Nat.zero_le _) hle).mp hn.le
    omega
  rw [approxTokens_build ⟨budget⟩ query chunks hn]
  constructor
  · intro hwithin m hm hfits
    -- No more chunks fit than are taken, and fewer of them cost less.
    have hmn : m ≤ n := hn ▸ (le_taken_iff (Nat.zero_le _) hm).mpr (by omega)
    have hmono := cost_mono chunks hmn
    omega
  · intro hfit
    have hroom := hfit n hle hcost
    omega

theorem build_within_budget_sample :
    BulletsFit 31 (ascii "why") [(⟨[], ascii "because of this", ()⟩ : RetrievedChunk Unit),
      ⟨[], ascii "or that", ()⟩] :=
  (build_within_budget_iff 31 (ascii "why") [⟨[], ascii "because of this", ()⟩, ⟨[], ascii "or that", ()⟩]
    (by decide +kernel)).mp (by decide +kernel)

/-- Eleven chunks of one token each, and a budget that has room for them without their bullets. -/
theorem bullets_exceed_budget :
    approxTokens (ascii "q") + kScaffoldTokens ≤ 36 ∧
      ¬ approxTokens ((⟨36⟩ : PromptBuilder).build (ascii "q")
        (List.replicate 11 (⟨ascii "d", ascii "a", ()⟩ : RetrievedChunk Unit))) ≤ 36 := by
  decide +kernel

/-- What is left of the tokens kept for the fixed text is enough for ten bullets. -/
theorem bulletsFit_of_length_le {chunks : List (RetrievedChunk Score)} (hlen : chunks.length ≤ 10)
    (budget : Nat)
    (query : Bytes) : BulletsFit budget query chunks := by
  intro n hn hfits
  simp only [kScaffoldTokens, promptTokens] at hfits ⊢
  omega

/-! ### What is quoted -/

/-- What a prompt says if its context has a line for each of some chunks. -/
def promptOf (query : Bytes) (chunks : List (RetrievedChunk Score)) : Bytes :=
  ascii "You are a helpful assistant. Answer using only the context below.\n\n" ++
    ascii "Context:\n" ++ chunks.flatMap bullet
    ++ ascii "\nQuestion: " ++ query ++ ascii "\nAnswer:"

/-- A prompt quotes the first chunks in full, as many as the budget has room for. -/
theorem build_quotes (budget : Nat) (query : Bytes) (chunks : List (RetrievedChunk Score)) :
    ∃ n ≤ chunks.length, (⟨budget⟩ : PromptBuilder).build query chunks = promptOf query (chunks.take n) ∧
      (∀ m ≤ chunks.length, m ≤ n ↔ cost chunks m ≤ budget - (approxTokens query + kScaffoldTokens)) ∧
      approxTokens (promptOf query (chunks.take n)) = promptTokens + approxTokens query + (n + cost chunks n) := by
  obtain ⟨n, hn⟩ : ∃ n, n = taken (budget - (approxTokens query + kScaffoldTokens)) chunks 0 := ⟨_, rfl⟩
  have hbuild : (⟨budget⟩ : PromptBuilder).build query chunks = promptOf query (chunks.take n) := by
    simp only [build, available_eq, addContext_eq, ← hn, List.nil_append, promptOf]
  refine ⟨n, hn ▸ taken_le_length _ _ _, hbuild, fun m hm => ?_, ?_⟩
  · have hfits := le_taken_iff (Nat.zero_le (budget - (approxTokens query + kScaffoldTokens))) hm
    rwa [← hn, Nat.zero_add] at hfits
  · rw [← hbuild]
    exact approxTokens_build ⟨budget⟩ query chunks hn

end PromptBuilder

namespace RagEngine

/-- The fields of `RagConfig` that only `build_prompt` reads. -/
structure PromptConfig where
  retrieveK : Nat := 5
  tokenBudget : Nat := 512

def buildPrompt {Score : Type} [LT Score] [DecidableLT Score] (model : EmbeddingModel) (cfg : RagConfig Score)
    (prompts : PromptConfig) (r : RagEngine) (query : Bytes) : Except Error Bytes := do
  let chunks ← r.retrieve model cfg query prompts.retrieveK
  pure ((⟨prompts.tokenBudget⟩ : PromptBuilder).build query chunks)

end RagEngine

end ToyVdb
