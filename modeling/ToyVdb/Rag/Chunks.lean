import ToyVdb.Rag.Text
import Mathlib.Data.List.Chain
import Mathlib.Data.List.GetD

/-!
# What the chunks cover

The windows start at the first token and end at the last, each shares the overlap with the one before,
and a chunk's text reads back as the tokens it was joined from. So the chunks give back the tokens of
the text, and how many tokens a chunk has can be read off its text.

`chunkLoop` adds positions without bound. `chunkLoopSizeT` is the loop with the sums of `std::size_t`,
and the two agree for every text that fits into memory, however large the window.
-/

namespace ToyVdb

/-! ### The text of a chunk -/

theorem joinTokens_succ (tokens : List Bytes) (first count : Nat) :
    joinTokens tokens first (first + (count + 1))
      = (if first + count > first then joinTokens tokens first (first + count) ++ [32]
          else joinTokens tokens first (first + count)) ++ tokens.getD (first + count) [] := by
  simp only [joinTokens, Nat.add_sub_cancel_left, List.range'_1_concat, List.foldl_append, List.foldl_cons,
    List.foldl_nil]

theorem tokenize_joinTokens {tokens : List Bytes} (hwords : ∀ t ∈ tokens, IsWord t) (first count : Nat)
    (hin : first + count ≤ tokens.length) :
    tokenize (joinTokens tokens first (first + count)) = tokens.extract first (first + count) := by
  induction count with
  | zero => simp [joinTokens, tokenize]
  | succ count ih =>
      have hlt : first + count < tokens.length := by omega
      have hget : tokens.getD (first + count) [] = tokens[first + count] := List.getD_eq_getElem _ _ hlt
      have hword : IsWord tokens[first + count] := hwords _ (List.getElem_mem hlt)
      have hslice : tokens.extract first (first + (count + 1))
          = tokens.extract first (first + count) ++ [tokens[first + count]] := by
        simp only [List.extract_eq_take_drop, Nat.add_sub_cancel_left, List.take_add_one, List.getElem?_drop]
        rw [List.getElem?_eq_getElem hlt]
        rfl
      rw [joinTokens_succ, hslice, ← ih (by omega), hget]
      cases count with
      | zero =>
          have hnil : joinTokens tokens first (first + 0) = [] := by simp [joinTokens]
          rw [hnil, if_neg (by omega), List.nil_append, hword.tokenize]
          rfl
      | succ count =>
          rw [if_pos (by omega), List.append_assoc, List.singleton_append, tokenize_append_space (by decide),
            hword.tokenize]

/-! ### The windows -/

/-- Chunks that cover the tokens from `start` on, each of `w` tokens but the last, each with its first `v`
tokens in common with the one before. -/
structure Covers (tokens : List Bytes) (w v start : Nat) (chunks : List Chunk) : Prop where
  starts : ∀ c ∈ chunks.head?, c.startToken = start
  ends : ∀ c ∈ chunks.getLast?, c.endToken = tokens.length ∧ c.endToken ≤ c.startToken + w
  full : ∀ c ∈ chunks.dropLast, c.endToken = c.startToken + w
  shares : chunks.IsChain fun c next => next.startToken + v = c.endToken ∧ c.endToken < next.endToken
  reads : ∀ c ∈ chunks, c.startToken < c.endToken ∧
    tokenize c.text = tokens.extract c.startToken c.endToken
  counts : ∀ c ∈ chunks, approxTokens c.text = c.endToken - c.startToken
  restores : ∀ c rest, chunks = c :: rest →
    tokenize c.text ++ rest.flatMap (fun next => (tokenize next.text).drop v) = tokens.drop start

section Windows

variable {tokens : List Bytes} {w v : Nat}

/-- The chunk of one round. -/
def window (tokens : List Bytes) (w start : Nat) : Chunk :=
  let stop := min (start + w) tokens.length
  ⟨joinTokens tokens start stop, start, stop⟩

theorem tokenize_window (hwords : ∀ t ∈ tokens, IsWord t) {start : Nat} (hstart : start < tokens.length) :
    tokenize (window tokens w start).text = tokens.extract start (min (start + w) tokens.length) := by
  have hstop : start + (min (start + w) tokens.length - start) = min (start + w) tokens.length := by omega
  have hread := tokenize_joinTokens hwords start (min (start + w) tokens.length - start) (by omega)
  rwa [hstop] at hread

theorem approxTokens_window (hwords : ∀ t ∈ tokens, IsWord t) {start : Nat} (hstart : start < tokens.length) :
    approxTokens (window tokens w start).text = min (start + w) tokens.length - start := by
  rw [approxTokens, tokenize_window hwords hstart, List.extract_eq_take_drop, List.length_take,
    List.length_drop]
  omega

theorem covers_last (hwords : ∀ t ∈ tokens, IsWord t) {start : Nat} (hstart : start < tokens.length)
    (hlast : tokens.length ≤ start + w) : Covers tokens w v start [window tokens w start] := by
  have hstop : (window tokens w start).endToken = tokens.length := Nat.min_eq_right hlast
  have hread : tokenize (window tokens w start).text = tokens.extract start tokens.length := by
    rw [tokenize_window hwords hstart, Nat.min_eq_right hlast]
  refine ⟨by simp [window], ?_, by simp, by simp, ?_, ?_, ?_⟩
  · intro c hc
    obtain rfl : window tokens w start = c := by simpa using hc
    exact ⟨hstop, hstop.trans_le hlast⟩
  · intro c hc
    rw [List.mem_singleton.mp hc, hstop]
    exact ⟨hstart, hread⟩
  · intro c hc
    rw [List.mem_singleton.mp hc]
    exact approxTokens_window hwords hstart
  · rintro c rest heq
    obtain ⟨rfl, rfl⟩ := List.cons.inj heq
    rw [hread, List.flatMap_nil, List.append_nil, List.extract_eq_take_drop]
    exact List.take_of_length_le (by rw [List.length_drop])

theorem Covers.cons (hwords : ∀ t ∈ tokens, IsWord t) (hv : v < w) {start : Nat} {c : Chunk}
    {rest : List Chunk}
    (hlong : start + w < tokens.length) (hrest : Covers tokens w v (start + (w - v)) (c :: rest)) :
    Covers tokens w v start (window tokens w start :: c :: rest) := by
  have hstop : (window tokens w start).endToken = start + w := Nat.min_eq_left hlong.le
  have hread : tokenize (window tokens w start).text = tokens.extract start (start + w) := by
    rw [tokenize_window hwords (by omega), Nat.min_eq_left hlong.le]
  have hnext : c.startToken = start + (w - v) := hrest.starts c rfl
  have hmore : start + w < c.endToken := by
    -- A chunk that is not the last is as long as the window, the last ends with the tokens.
    cases rest with
    | nil =>
        have hend := (hrest.ends c rfl).1
        omega
    | cons c' rest =>
        have hfull := hrest.full c (by simp)
        omega
  refine ⟨by simp [window], fun c' hc' => ?_, fun c' hc' => ?_, ?_, ?_, ?_, ?_⟩
  · exact hrest.ends c' (by simpa using hc')
  · rcases List.mem_cons.mp hc' with rfl | hc'
    · exact hstop
    · exact hrest.full c' hc'
  · refine List.isChain_cons_cons.mpr ⟨⟨?_, ?_⟩, hrest.shares⟩
    · rw [hnext, hstop]
      omega
    · rwa [hstop]
  · intro c' hc'
    rcases List.mem_cons.mp hc' with rfl | hc'
    · rw [hstop]
      exact ⟨show start < start + w by omega, hread⟩
    · exact hrest.reads c' hc'
  · intro c' hc'
    rcases List.mem_cons.mp hc' with rfl | hc'
    · exact approxTokens_window hwords (by omega)
    · exact hrest.counts c' hc'
  · rintro c' rest' heq
    obtain ⟨rfl, rfl⟩ := List.cons.inj heq
    have hglue := congrArg (List.drop v) (hrest.restores c rest rfl)
    have hcount := hrest.counts c List.mem_cons_self
    rw [approxTokens] at hcount
    rw [List.drop_append_of_le_length (by omega), List.drop_drop] at hglue
    have hpos : start + (w - v) + v = start + w := by omega
    rw [List.flatMap_cons, hglue, hread, List.extract_eq_take_drop, Nat.add_sub_cancel_left, hpos,
      ← List.drop_drop, List.take_append_drop]

theorem chunkLoop_succ (step fuel : Nat) {start : Nat} (hstart : start < tokens.length) :
    chunkLoop tokens w step (fuel + 1) start = if tokens.length ≤ start + w then [window tokens w start]
      else window tokens w start :: chunkLoop tokens w step fuel (start + step) := by
  rw [chunkLoop, if_pos hstart]
  by_cases hlast : tokens.length ≤ start + w
  · rw [if_pos hlast]
    exact if_pos (Nat.min_eq_right hlast)
  · rw [if_neg hlast]
    exact if_neg (by omega)

/-- The loop, from any round on: as many rounds as there are tokens left suffice. -/
theorem covers_chunkLoop (hwords : ∀ t ∈ tokens, IsWord t) (hv : v < w) (fuel start : Nat)
    (hstart : start < tokens.length) (hfuel : tokens.length ≤ start + fuel) :
    ∃ c rest, chunkLoop tokens w (w - v) fuel start = c :: rest ∧ Covers tokens w v start (c :: rest) := by
  induction fuel generalizing start with
  | zero => omega
  | succ fuel ih =>
      rw [chunkLoop_succ _ _ hstart]
      by_cases hlast : tokens.length ≤ start + w
      · rw [if_pos hlast]
        exact ⟨_, _, rfl, covers_last hwords hstart hlast⟩
      · rw [if_neg hlast]
        obtain ⟨c, rest, heq, hrest⟩ := ih (start + (w - v)) (by omega) (by omega)
        rw [heq]
        exact ⟨_, _, rfl, hrest.cons hwords hv (by omega)⟩

/-! ### The loop as the machine runs it -/

/-- The loop with sums of 64 bits. -/
def chunkLoopSizeT (tokens : List Bytes) (window step : Nat) : Nat → Nat → List Chunk
  | 0, _ => []
  | fuel + 1, start =>
    if start < tokens.length then
      let stop := min ((start + window) % 2 ^ 64) tokens.length
      let chunk : Chunk := ⟨joinTokens tokens start stop, start, stop⟩
      if stop = tokens.length then [chunk]
      else chunk :: chunkLoopSizeT tokens window step fuel ((start + step) % 2 ^ 64)
    else []

/-- A window that is left behind is shorter than the tokens, so no later sum wraps around. -/
theorem chunkLoopSizeT_eq (hsize : 2 * tokens.length ≤ 2 ^ 64) {step : Nat} (hstep : step ≤ w)
    (fuel start : Nat)
    (hsum : start + w < 2 ^ 64) :
    chunkLoopSizeT tokens w step fuel start = chunkLoop tokens w step fuel start := by
  induction fuel generalizing start with
  | zero => rfl
  | succ fuel ih =>
      by_cases hstart : start < tokens.length
      · simp only [chunkLoopSizeT, chunkLoop, if_pos hstart, Nat.mod_eq_of_lt hsum]
        by_cases hstop : min (start + w) tokens.length = tokens.length
        · rw [if_pos hstop, if_pos hstop]
        · have hlong : start + w < tokens.length := by omega
          rw [if_neg hstop, if_neg hstop, Nat.mod_eq_of_lt (by omega), ih (start + step) (by omega)]
      · simp only [chunkLoopSizeT, chunkLoop, if_neg hstart]

theorem chunkLoop_fuel {step : Nat} (hstep : 0 < step) (fuel extra start : Nat)
    (hfuel : tokens.length ≤ start + fuel) :
    chunkLoop tokens w step (fuel + extra) start = chunkLoop tokens w step fuel start := by
  induction fuel generalizing start with
  | zero =>
      have hend : ¬ start < tokens.length := by omega
      cases extra <;> simp [chunkLoop, hend]
  | succ fuel ih =>
      rw [Nat.add_right_comm, chunkLoop, chunkLoop, ih (start + step) (by omega)]

end Windows

/-! ### The chunks of a text -/

/-- The window as it is used: at least one token. -/
def ChunkConfig.usedWindow (cfg : ChunkConfig) : Nat := max 1 cfg.window

/-- The overlap as it is used: less than the window. -/
def ChunkConfig.usedOverlap (cfg : ChunkConfig) : Nat := min cfg.overlap (cfg.usedWindow - 1)

theorem ChunkConfig.usedOverlap_lt (cfg : ChunkConfig) : cfg.usedOverlap < cfg.usedWindow := by
  simp only [usedOverlap, usedWindow]
  omega

theorem chunkText_eq (text : Bytes) (cfg : ChunkConfig) :
    chunkText text cfg = chunkLoop (tokenize text) cfg.usedWindow (cfg.usedWindow - cfg.usedOverlap)
      (tokenize text).length 0 := by
  have hwindow : (if cfg.window = 0 then 1 else cfg.window) = cfg.usedWindow := by
    rw [ChunkConfig.usedWindow]
    split <;> omega
  have hoverlap : (if cfg.overlap ≥ cfg.usedWindow then cfg.usedWindow - 1 else cfg.overlap)
      = cfg.usedOverlap := by
    rw [ChunkConfig.usedOverlap]
    split <;> omega
  rw [chunkText]
  cases htokens : tokenize text with
  | nil => rfl
  | cons token tokens =>
      simp only [List.isEmpty_cons, Bool.false_eq_true, if_false, hwindow, hoverlap]

theorem covers_chunkText (text : Bytes) (cfg : ChunkConfig) :
    Covers (tokenize text) cfg.usedWindow cfg.usedOverlap 0 (chunkText text cfg) := by
  by_cases htokens : tokenize text = []
  · rw [(chunkText_eq_nil_iff text cfg).mpr ((tokenize_eq_nil_iff text).mp htokens)]
    constructor <;> simp
  · have hpos : 0 < (tokenize text).length := List.length_pos_of_ne_nil htokens
    obtain ⟨c, rest, hchunks, hcovers⟩ := covers_chunkLoop (fun t ht => isWord_of_mem_tokenize ht)
      cfg.usedOverlap_lt (tokenize text).length 0 hpos (by omega)
    rw [chunkText_eq, hchunks]
    exact hcovers

/-- The chunks cover the text: there are none only if it has no tokens, and otherwise they cover all of its
tokens, whatever the window and the overlap. The loop ends by itself after at most as many rounds as there
are tokens, also where positions are added up in 64 bits. -/
theorem chunkText_covers (text : Bytes) (cfg : ChunkConfig) :
    (chunkText text cfg = [] ↔ tokenize text = []) ∧
      Covers (tokenize text) cfg.usedWindow cfg.usedOverlap 0 (chunkText text cfg) ∧
      (text.length < 2 ^ 64 → cfg.window < 2 ^ 64 → ∀ rounds, (tokenize text).length ≤ rounds →
        chunkLoopSizeT (tokenize text) cfg.usedWindow (cfg.usedWindow - cfg.usedOverlap) rounds 0
          = chunkText text cfg) := by
  refine ⟨(chunkText_eq_nil_iff text cfg).trans (tokenize_eq_nil_iff text).symm,
    covers_chunkText text cfg, ?_⟩
  intro htext hwindow rounds hrounds
  have hsize := length_tokenize_le text
  have hlt := cfg.usedOverlap_lt
  have hused : cfg.usedWindow < 2 ^ 64 := by
    rw [ChunkConfig.usedWindow]
    omega
  obtain ⟨extra, rfl⟩ := Nat.exists_eq_add_of_le hrounds
  rw [chunkLoopSizeT_eq (by omega) (by omega) _ _ (by omega), chunkLoop_fuel (by omega) _ _ _ (by omega),
    chunkText_eq]

end ToyVdb
