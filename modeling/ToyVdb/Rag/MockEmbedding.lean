import ToyVdb.Rag.Model
import ToyVdb.Lib.Tally

/-!
# The mock embedding model

A text is embedded without a network: each of its words counts up or down in the component its hash picks, and the
vector of the counts is scaled to length one. The counts are whole numbers, and stop at the largest one a float
counts to. Up to there only which words there are matters, not their order.
-/

namespace ToyVdb

open Ieee Outcome

namespace MockEmbeddingModel

/-! ### As the source computes it -/

def fnv1a (s : Bytes) : UInt64 := s.foldl (fun h c => (h ^^^ c.toUInt64) * 1099511628211) 1469598103934665603

/-- Signed hashing: the top bit decides. -/
def sign (h : UInt64) : Float32 := if (h >>> 63) &&& 1 ≠ 0 then 1 else -1

variable (dim : UInt32)

/-- One token. Very short words are dropped. Without components the source divides by zero. -/
def countToken (v : List Float32) (tok : Bytes) : Except Error (List Float32) :=
  if tok.length < 3 then pure v
  else
    let h := fnv1a tok
    let idx := h.toNat % dim.toNat
    if idx < v.length then pure (v.modify idx (· + sign h)) else throw .outOfRange

/-- In double precision. -/
def normSq (v : List Float32) : Float := v.foldl (fun sum x => sum + widen x * widen x) 0

def normalize (v : List Float32) : List Float32 :=
  if 0 < normSq v then
    let inv := narrow (1 / (normSq v).sqrt)
    v.map (· * inv)
  else v

def embed (text : Bytes) : Except Error Vec := do
  let v ← (tokenize text).foldlM (countToken dim) (List.replicate dim.toNat 0)
  pure ((normalize v).map Float32.toBits)

/-- The adapter. -/
def model : EmbeddingModel := ⟨dim, embed dim⟩

/-! ### What it counts -/

/-- The words of a text that count. -/
def words (text : Bytes) : List Bytes := (tokenize text).filter fun tok => 3 ≤ tok.length

/-- The component of a word. -/
def bucket (tok : Bytes) : Nat := (fnv1a tok).toNat % dim.toNat

/-- Up or down. -/
def direction (tok : Bytes) : ℤ := if (fnv1a tok >>> 63) &&& 1 ≠ 0 then 1 else -1

/-- The directions of the words of a component. -/
def directionsAt (toks : List Bytes) (i : Nat) : List ℤ := (toks.filter fun tok => bucket dim tok = i).map direction

/-- What a component counts to. -/
def countAt (text : Bytes) (i : Nat) : ℤ := tally (2 ^ 24) (directionsAt dim (words text) i)

theorem direction_cases (tok : Bytes) : direction tok = 1 ∨ direction tok = -1 := by
  rw [direction]
  split
  · exact .inl rfl
  · exact .inr rfl

theorem directionsAt_cases (toks : List Bytes) (i : Nat) : ∀ s ∈ directionsAt dim toks i, s = 1 ∨ s = -1 := by
  intro s hs
  obtain ⟨tok, -, rfl⟩ := List.mem_map.mp hs
  exact direction_cases tok

theorem value_sign (tok : Bytes) : value (sign (fnv1a tok)) = .counted .binary32 (direction tok) := by
  have hone : Value.counted .binary32 1 = .fin false 1 := by
    have hunits := Value.rounded_units false (1 : Magnitude .binary32)
    rw [units_one] at hunits
    simpa [Value.counted] using hunits
  have hneg : Value.counted .binary32 (-1) = .fin true 1 := by
    have hunits := Value.rounded_units true (1 : Magnitude .binary32)
    rw [units_one] at hunits
    simpa [Value.counted] using hunits
  rw [sign, direction]
  split
  · rw [value_one, hone]
  · rw [value_neg, value_one, hneg]
    rfl

theorem directionsAt_concat (toks : List Bytes) (tok : Bytes) (i : Nat) :
    directionsAt dim (toks ++ [tok]) i =
      directionsAt dim toks i ++ if bucket dim tok = i then [direction tok] else [] := by
  rw [directionsAt, directionsAt, List.filter_append, List.map_append]
  congr 1
  by_cases hbucket : bucket dim tok = i <;> simp [hbucket]

/-- The values of the counts of the words that were read. -/
def Counted (toks : List Bytes) (v : List Float32) : Prop :=
  v.length = dim.toNat ∧ ∀ i x, v[i]? = some x → value x = .counted .binary32 (tally (2 ^ 24) (directionsAt dim toks i))

theorem counted_nil : Counted dim [] (List.replicate dim.toNat 0) := by
  refine ⟨List.length_replicate, fun i x hx => ?_⟩
  rw [List.eq_of_mem_replicate (List.mem_of_getElem? hx)]
  exact Value.counted_zero.symm

variable {dim}

theorem Counted.word {toks : List Bytes} {v : List Float32} (h : Counted dim toks v) (tok : Bytes) :
    Counted dim (toks ++ [tok]) (v.modify (bucket dim tok) (· + sign (fnv1a tok))) := by
  refine ⟨(List.length_modify _ v _).trans h.1, fun i y hy => ?_⟩
  rw [List.getElem?_modify, Option.map_eq_map, Option.map_eq_some_iff] at hy
  obtain ⟨x, hx, rfl⟩ := hy
  rw [directionsAt_concat]
  by_cases hbucket : bucket dim tok = i
  · rw [if_pos hbucket, if_pos hbucket, tally_concat]
    simp only [value_add, h.2 i x hx, value_sign]
    exact Value.add_counted (two_pow_mul_one_lt_top (by decide)) (abs_tally_le (by norm_num) _) (direction_cases tok)
  · rw [if_neg hbucket, if_neg hbucket, List.append_nil]
    exact h.2 i x hx

theorem count_yields (hdim : dim ≠ 0) (toks : List Bytes) :
    Yields (toks.foldlM (countToken dim) (List.replicate dim.toNat 0))
      (Counted dim (toks.filter fun tok => 3 ≤ tok.length)) := by
  induction toks using List.reverseRecOn with
  | nil => exact .pure (counted_nil dim)
  | append_singleton toks tok ih =>
      rw [List.foldlM_append, List.filter_append]
      refine ih.bind fun v hv => ?_
      simp only [List.foldlM_cons, List.foldlM_nil, bind_pure, countToken]
      by_cases hshort : tok.length < 3
      · rw [if_pos hshort]
        apply Yields.pure
        simpa [not_le.mpr hshort] using hv
      · have hidx : (fnv1a tok).toNat % dim.toNat < v.length := by
          rw [hv.1]
          exact Nat.mod_lt _ (Nat.pos_of_ne_zero fun hzero => hdim (UInt32.toNat_inj.mp hzero))
        rw [if_neg hshort, if_pos hidx]
        apply Yields.pure
        simpa [not_lt.mp hshort, bucket] using hv.word tok

/-- All the counts. -/
def counts (dim : UInt32) (text : Bytes) : List ℤ := (List.range dim.toNat).map (countAt dim text)

theorem abs_counts_le {text : Bytes} : ∀ c ∈ counts dim text, |c| ≤ 2 ^ 24 := by
  intro c hc
  obtain ⟨i, -, rfl⟩ := List.mem_map.mp hc
  exact abs_tally_le (by norm_num) _

theorem Counted.values (text : Bytes) {v : List Float32} (h : Counted dim (words text) v) :
    v.map value = (counts dim text).map (Value.counted .binary32) := by
  apply List.ext_getElem
  · simp [counts, h.1]
  · intro i hi hi'
    simp only [List.length_map] at hi
    simp only [counts, List.getElem_map, List.getElem_range]
    exact h.2 i _ (List.getElem?_eq_getElem hi)

/-! ### Bags of words -/

theorem countAt_congr {text text' : Bytes} (hwords : (words text).Perm (words text'))
    (hlen : (words text).length ≤ 2 ^ 24) (i : Nat) : countAt dim text i = countAt dim text' i := by
  have hperm : (directionsAt dim (words text) i).Perm (directionsAt dim (words text') i) :=
    (hwords.filter _).map _
  have hle : (directionsAt dim (words text) i).length ≤ 2 ^ 24 := by
    rw [directionsAt, List.length_map]
    exact (List.length_filter_le ..).trans hlen
  rw [countAt, countAt, tally_eq_sum (directionsAt_cases dim _ i) (by exact_mod_cast hle),
    tally_eq_sum (directionsAt_cases dim _ i) (by exact_mod_cast hperm.length_eq ▸ hle), hperm.sum_eq]

theorem embed_eq_of_counts (hdim : dim ≠ 0) {text text' : Bytes} (hcounts : counts dim text = counts dim text') :
    embed dim text = embed dim text' := by
  obtain ⟨v, hv, hcounted⟩ := count_yields hdim (tokenize text)
  obtain ⟨v', hv', hcounted'⟩ := count_yields hdim (tokenize text')
  have hvalues : v.map value = v'.map value := by
    rw [Counted.values text hcounted, hcounts, Counted.values text' hcounted']
  rw [embed, embed, hv, hv', value_injective.list_map hvalues]

theorem counts_congr {text text' : Bytes} (hwords : (words text).Perm (words text'))
    (hlen : (words text).length ≤ 2 ^ 24) : counts dim text = counts dim text' :=
  List.map_congr_left fun i _ => countAt_congr hwords hlen i

/-- **An embedding is that of a bag of words.** Into any number of components but zero, texts with the same words, in
any order and however they are cased and spaced, have the same embedding to the bit, up to `2 ^ 24` words; words of
less than three bytes make no difference. -/
theorem same_words_same_embedding (dim : UInt32) (hdim : dim ≠ 0) (text text' : Bytes)
    (hwords : (words text).Perm (words text')) (hlen : (words text).length ≤ 2 ^ 24) :
    embed dim text = embed dim text' := embed_eq_of_counts hdim (counts_congr hwords hlen)

theorem same_words_same_embedding_sample : embed 8 (ascii "The quick fox") = embed 8 (ascii "a fox the  QUICK") :=
  same_words_same_embedding 8 (by decide) _ _ (by decide +kernel) (by decide +kernel)

end MockEmbeddingModel

end ToyVdb
