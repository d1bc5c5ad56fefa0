import ToyVdb.Types

/-!
# Tokens and chunks

A text is split into tokens at whitespace and cut into windows of tokens that overlap. Bytes are
classified as in the C locale.
-/

namespace ToyVdb

/-! ### Tokens -/

def isSpace (b : UInt8) : Bool := b = 32 || (9 ≤ b && b ≤ 13)

def toLower (b : UInt8) : UInt8 := if 65 ≤ b && b ≤ 90 then b + 32 else b

/-- The tokens so far, and the one that is being read. -/
def readByte (st : List Bytes × Bytes) (b : UInt8) : List Bytes × Bytes :=
  if isSpace b then
    if st.2.isEmpty then st else (st.1 ++ [st.2], [])
  else (st.1, st.2 ++ [toLower b])

def tokenize (text : Bytes) : List Bytes :=
  let (tokens, cur) := text.foldl readByte ([], [])
  if cur.isEmpty then tokens else tokens ++ [cur]

/-- Approximate token count, by which prompts are budgeted. -/
def approxTokens (text : Bytes) : Nat := (tokenize text).length

/-! ### Chunks -/

structure Chunk where
  text : Bytes
  startToken : Nat
  endToken : Nat
deriving DecidableEq

structure ChunkConfig where
  window : Nat := 64
  overlap : Nat := 16

/-- The tokens from `first` on, up to `last`, with spaces between them. -/
def joinTokens (tokens : List Bytes) (first last : Nat) : Bytes :=
  (List.range' first (last - first)).foldl
    (fun joined i => (if i > first then joined ++ [32] else joined) ++ tokens.getD i []) []

/-- The loop over the windows. Each round starts at least one token later, so the tokens bound the rounds. -/
def chunkLoop (tokens : List Bytes) (window step : Nat) : Nat → Nat → List Chunk
  | 0, _ => []
  | fuel + 1, start =>
    if start < tokens.length then
      let stop := min (start + window) tokens.length
      let chunk : Chunk := ⟨joinTokens tokens start stop, start, stop⟩
      if stop = tokens.length then [chunk] else chunk :: chunkLoop tokens window step fuel (start + step)
    else []

def chunkText (text : Bytes) (cfg : ChunkConfig) : List Chunk :=
  let tokens := tokenize text
  if tokens.isEmpty then []
  else
    let window := if cfg.window = 0 then 1 else cfg.window
    let overlap := if cfg.overlap ≥ window then window - 1 else cfg.overlap
    chunkLoop tokens window (window - overlap) tokens.length 0

/-! ### Words -/

/-- What tokens are made of: no whitespace, and no capitals. -/
def WordByte (b : UInt8) : Prop := isSpace b = false ∧ toLower b = b

/-- A token on its own. -/
structure IsWord (token : Bytes) : Prop where
  ne_nil : token ≠ []
  bytes : ∀ b ∈ token, WordByte b

/-- The letter a capital is read as is none, and neither is it whitespace. -/
theorem wordByte_toLower {b : UInt8} (hspace : isSpace b = false) : WordByte (toLower b) := by
  by_cases hupper : 65 ≤ b ∧ b ≤ 90
  · have hlower : toLower b = b + 32 := by simp [toLower, hupper]
    rw [hlower, WordByte, isSpace, toLower]
    have h1 := UInt8.le_iff_toNat_le.mp hupper.1
    have h2 := UInt8.le_iff_toNat_le.mp hupper.2
    constructor
    · simp [UInt8.le_iff_toNat_le, ← UInt8.toNat_inj] at h1 h2 ⊢
      omega
    · simp [UInt8.le_iff_toNat_le] at h1 h2 ⊢
      omega
  · have hlower : toLower b = b := by simpa [toLower] using hupper
    rw [hlower]
    exact ⟨hspace, hlower⟩

/-- What has been read, with the token that is being read as the last one. -/
def closeToken (st : List Bytes × Bytes) : List Bytes := if st.2.isEmpty then st.1 else st.1 ++ [st.2]

theorem tokenize_eq (text : Bytes) : tokenize text = closeToken (text.foldl readByte ([], [])) := rfl

theorem readByte_space {b : UInt8} (hspace : isSpace b = true) (st : List Bytes × Bytes) :
    readByte st b = (closeToken st, []) := by
  obtain ⟨tokens, cur⟩ := st
  cases cur <;> simp [readByte, closeToken, hspace]

theorem foldl_readByte_append (text : Bytes) (before tokens : List Bytes) (cur : Bytes) :
    text.foldl readByte (before ++ tokens, cur)
      = (before ++ (text.foldl readByte (tokens, cur)).1, (text.foldl readByte (tokens, cur)).2) := by
  induction text generalizing tokens cur with
  | nil => rfl
  | cons b text ih =>
      rw [List.foldl_cons, List.foldl_cons, ← ih]
      congr 1
      by_cases hspace : isSpace b = true
      · cases cur <;> simp [readByte, hspace]
      · simp [readByte, hspace]

/-- Texts with whitespace between them are read one after the other. -/
theorem tokenize_append_space {b : UInt8} (hspace : isSpace b = true) (text rest : Bytes) :
    tokenize (text ++ b :: rest) = tokenize text ++ tokenize rest := by
  have hread := foldl_readByte_append rest (tokenize text) [] []
  rw [List.append_nil] at hread
  rw [tokenize_eq, List.foldl_append, List.foldl_cons, readByte_space hspace, ← tokenize_eq, hread,
    tokenize_eq rest, closeToken, closeToken]
  split_ifs with hcur
  · rfl
  · rw [List.append_assoc]

theorem approxTokens_append_space {b : UInt8} (hspace : isSpace b = true) (text rest : Bytes) :
    approxTokens (text ++ b :: rest) = approxTokens text + approxTokens rest := by
  simp only [approxTokens, tokenize_append_space hspace, List.length_append]

theorem foldl_readByte_word {word : Bytes} (hword : ∀ b ∈ word, WordByte b) (tokens : List Bytes)
    (cur : Bytes) : word.foldl readByte (tokens, cur) = (tokens, cur ++ word) := by
  induction word generalizing cur with
  | nil => simp
  | cons b word ih =>
      have hb := hword b List.mem_cons_self
      rw [List.foldl_cons, readByte, hb.1, hb.2]
      simpa using ih (fun b hmem => hword b (List.mem_cons_of_mem _ hmem)) (cur ++ [b])

theorem IsWord.tokenize {word : Bytes} (hword : IsWord word) : tokenize word = [word] := by
  rw [tokenize_eq, foldl_readByte_word hword.bytes]
  simp [closeToken, hword.ne_nil]

theorem isWord_of_mem_closeToken {st : List Bytes × Bytes} (htokens : ∀ t ∈ st.1, IsWord t)
    (hcur : ∀ b ∈ st.2, WordByte b) {token : Bytes} (hmem : token ∈ closeToken st) : IsWord token := by
  rw [closeToken] at hmem
  split_ifs at hmem with hempty
  · exact htokens token hmem
  · rcases List.mem_append.mp hmem with hmem | hmem
    · exact htokens token hmem
    · rw [List.mem_singleton.mp hmem]
      exact ⟨fun heq => hempty (by rw [heq]; rfl), hcur⟩

/-- Every token is a word, and so is what has been read of the next one, unless that is nothing. -/
theorem foldl_readByte_words (text : Bytes) (st : List Bytes × Bytes) (htokens : ∀ t ∈ st.1, IsWord t)
    (hcur : ∀ b ∈ st.2, WordByte b) :
    (∀ t ∈ (text.foldl readByte st).1, IsWord t) ∧ ∀ b ∈ (text.foldl readByte st).2, WordByte b := by
  induction text generalizing st with
  | nil => exact ⟨htokens, hcur⟩
  | cons b text ih =>
      rw [List.foldl_cons]
      cases hspace : isSpace b with
      | true =>
          rw [readByte_space hspace]
          exact ih _ (fun t ht => isWord_of_mem_closeToken htokens hcur ht)
            (fun b hmem => absurd hmem List.not_mem_nil)
      | false =>
          have hread : readByte st b = (st.1, st.2 ++ [toLower b]) := by simp [readByte, hspace]
          rw [hread]
          refine ih _ htokens (fun b' hmem => ?_)
          rcases List.mem_append.mp hmem with hmem | hmem
          · exact hcur b' hmem
          · rw [List.mem_singleton.mp hmem]
            exact wordByte_toLower hspace

theorem isWord_of_mem_tokenize {text token : Bytes} (hmem : token ∈ tokenize text) : IsWord token := by
  obtain ⟨htokens, hcur⟩ := foldl_readByte_words text ([], []) (by simp) (by simp)
  exact isWord_of_mem_closeToken htokens hcur hmem

/-- The bytes that were needed to get there: one for each token and one for the space behind it. -/
def bytesRead (st : List Bytes × Bytes) : Nat := 2 * st.1.length + if st.2.isEmpty then 0 else 1

theorem bytesRead_foldl_le (text : Bytes) (st : List Bytes × Bytes) :
    bytesRead (text.foldl readByte st) ≤ bytesRead st + text.length := by
  induction text generalizing st with
  | nil => simp
  | cons b text ih =>
      have hstep : bytesRead (readByte st b) ≤ bytesRead st + 1 := by
        obtain ⟨tokens, cur⟩ := st
        cases hspace : isSpace b <;> cases cur <;> simp [readByte, bytesRead, hspace]
        omega
      have hrest := ih (readByte st b)
      rw [List.foldl_cons, List.length_cons]
      omega

theorem length_tokenize_le (text : Bytes) : 2 * (tokenize text).length ≤ text.length + 1 := by
  have hread := bytesRead_foldl_le text ([], [])
  have hstart : bytesRead ([], []) = 0 := rfl
  rw [hstart, bytesRead] at hread
  rw [tokenize_eq, closeToken]
  split_ifs at hread ⊢ with hcur
  · omega
  · rw [List.length_append, List.length_singleton]
    omega

/-! ### Blank texts -/

/-- Nothing but whitespace. -/
def Blank (text : Bytes) : Prop := ∀ b ∈ text, isSpace b = true

theorem foldl_readByte_eq_nil_iff (text : Bytes) (st : List Bytes × Bytes) :
    ((text.foldl readByte st).1 = [] ∧ (text.foldl readByte st).2 = []) ↔ (st.1 = [] ∧ st.2 = []) ∧
      Blank text := by
  induction text generalizing st with
  | nil => simp [Blank]
  | cons b text ih =>
      rw [List.foldl_cons, ih]
      by_cases hspace : isSpace b = true
      · cases hcur : st.2.isEmpty with
        | true => simp [readByte, hspace, hcur, Blank]
        | false =>
            have hne : st.2 ≠ [] := fun heq => by simp [heq] at hcur
            simp [readByte, hspace, hcur, hne]
      · simp [readByte, hspace, Blank]

theorem tokenize_eq_nil_iff (text : Bytes) : tokenize text = [] ↔ Blank text := by
  have hread := foldl_readByte_eq_nil_iff text ([], [])
  rw [tokenize]
  cases hcur : (text.foldl readByte ([], [])).2.isEmpty with
  | true =>
      have hnil := List.isEmpty_iff.mp hcur
      simpa [hnil] using hread
  | false =>
      have hne : (text.foldl readByte ([], [])).2 ≠ [] := fun heq => by simp [heq] at hcur
      simpa [hne] using hread

/-- A blank text has no chunks, and only a blank one. -/
theorem chunkText_eq_nil_iff (text : Bytes) (cfg : ChunkConfig) : chunkText text cfg = [] ↔ Blank text := by
  rw [← tokenize_eq_nil_iff, chunkText]
  cases tokenize text with
  | nil => exact ⟨fun _ => rfl, fun _ => rfl⟩
  | cons token tokens =>
      refine ⟨fun hnil => ?_, fun hnil => by cases hnil⟩
      simp only [List.isEmpty_cons, Bool.false_eq_true, if_false, List.length_cons, chunkLoop,
        Nat.zero_lt_succ, if_true] at hnil
      split_ifs at hnil

end ToyVdb
