import ToyVdb.Disk.Frames

/-!
# The log under faults

What `replay` makes of a log that did not come about by complete appends alone: a log cut at an
arbitrary byte, a log with failed appends in it, and a log with zeros behind it. A cut costs what is
behind it and nothing else. A failed append leaves a piece of its frame in the file, which hides
what is appended later. Zeros are read as records, since the checksum of nothing is zero.
-/

namespace ToyVdb

open LittleEndian

namespace FileLogStore

/-! ### Cut logs -/

theorem foldl_append (records : List Bytes) (file : Bytes) :
    records.foldl append file = file ++ records.flatMap frame := by
  induction records generalizing file with
  | nil => simp
  | cons record records ih => simp [ih, append]

/-- The records whose whole frame lies within the first n bytes of the log, in order. -/
def recordsWithin (records : List Bytes) (n : Nat) : List Bytes :=
  (records.zipIdx.filter fun r => Framing.offset frame records (r.2 + 1) ≤ n).map Prod.fst

theorem recordsWithin_eq_take {records : List Bytes} {n m : Nat}
    (hm : ∀ i, i < records.length → (i < m ↔ Framing.offset frame records (i + 1) ≤ n)) :
    recordsWithin records n = records.take m := by
  have hsplit : records.zipIdx = (records.take m).zipIdx ++ (records.drop m).zipIdx
      (records.take m).length := by
    rw [← Nat.zero_add (records.take m).length, ← List.zipIdx_append, List.take_append_drop]
  have hfront : (records.take m).zipIdx.filter (fun r => Framing.offset frame records (r.2 + 1) ≤ n) =
      (records.take m).zipIdx := by
    rw [List.filter_eq_self]
    rintro ⟨record, i⟩ hr
    have hi : i < (records.take m).length := List.snd_lt_of_mem_zipIdx hr
    rw [List.length_take] at hi
    exact decide_eq_true ((hm i (by omega)).mp (by omega))
  have hback : ((records.drop m).zipIdx (records.take m).length).filter
      (fun r => Framing.offset frame records (r.2 + 1) ≤ n) = [] := by
    rw [List.filter_eq_nil_iff]
    rintro ⟨record, i⟩ hr hle
    have hge := List.le_snd_of_mem_zipIdx hr
    have hlt := List.snd_lt_add_of_mem_zipIdx hr
    rw [List.length_drop, List.length_take] at hlt
    rw [List.length_take] at hge
    have hi := (hm i (by omega)).mpr (of_decide_eq_true hle)
    omega
  rw [recordsWithin, hsplit, List.filter_append, hfront, hback, List.append_nil, List.zipIdx_map_fst]

/-- **Replay is prefix-exact.** Of a log that was cut to its first n bytes, exactly the records are
delivered whose whole frame is left, in order; with nothing cut off, that is all of them. -/
theorem replay_is_prefix_exact (records : List Bytes)
    (hsmall : ∀ record ∈ records, record.length < 2 ^ 32) (n : Nat) :
    replay ((records.foldl append []).take n) = recordsWithin records n ∧
      (n = (records.foldl append []).length → replay ((records.foldl append []).take n) = records) := by
  have hfile : records.foldl append [] = records.flatMap frame := foldl_append records []
  rw [hfile]
  obtain ⟨m, hparse, hm⟩ := Framing.parse_take records
    (fun record hrecord => next_frame (hsmall record hrecord)) frame_pos
    next_nil (fun record hrecord torn hpiece hne => next_torn (hsmall record hrecord) hpiece hne) n
  refine ⟨hparse.trans (recordsWithin_eq_take hm).symm, fun hall => ?_⟩
  rw [hall, List.take_length]
  have hreplay := replay_frames records hsmall next_nil
  rwa [List.append_nil] at hreplay

/-- An empty record, and the first payload byte of the next one missing. -/
theorem replay_is_prefix_exact_sample : replay (([[], [7]].foldl append []).take 16) = [[]] :=
  (replay_is_prefix_exact [[], [7]] (by decide) 16).1.trans (by decide +kernel)

/-! ### Failed appends -/

/-- `write_all`, where the system refuses to write once `room` more bytes are written. It returns
how much room is left. -/
def writeAll (file data : Bytes) (room : Nat) : Except Error Nat × Bytes :=
  if data.length ≤ room then (.ok (room - data.length), file ++ data)
  else (.error (.runtimeError "FileLogStore: write failed"), file ++ data.take room)

/-- `append` with limited room: the header and the payload are written one after the other, and what
is written when a write fails stays in the file. -/
def tryAppend (file record : Bytes) (room : Nat) : Except Error Unit × Bytes :=
  match writeAll file (bytes 4 (crc32 record).toNat ++ bytes 4 record.length) room with
  | (.error err, file) => (.error err, file)
  | (.ok room, file) =>
    match writeAll file record room with
    | (.error err, file) => (.error err, file)
    | (.ok _, file) => (.ok (), file)

theorem tryAppend_eq (file record : Bytes) (room : Nat) :
    tryAppend file record room =
      if (frame record).length ≤ room then (.ok (), append file record)
      else (.error (.runtimeError "FileLogStore: write failed"), file ++ (frame record).take room) := by
  have hheader : (bytes 4 (crc32 record).toNat ++ bytes 4 record.length).length = 8 := by simp
  rw [length_frame]
  by_cases hroom : 8 ≤ room
  · have htake : (frame record).take room =
        bytes 4 (crc32 record).toNat ++ bytes 4 record.length ++ record.take (room - 8) := by
      rw [frame, List.take_append, hheader, List.take_of_length_le (hheader.trans_le hroom)]
    rw [tryAppend, writeAll, hheader, if_pos hroom]
    dsimp only
    rw [writeAll]
    by_cases hbody : record.length ≤ room - 8
    · simp only [if_pos hbody, if_pos (show 8 + record.length ≤ room by omega), append, frame,
        List.append_assoc]
    · simp only [if_neg hbody, if_neg (show ¬ 8 + record.length ≤ room by omega), htake, List.append_assoc]
  · have htake : (frame record).take room =
        (bytes 4 (crc32 record).toNat ++ bytes 4 record.length).take room := by
      rw [frame, List.take_append_of_le_length (by omega)]
    rw [tryAppend, writeAll, hheader, if_neg hroom, if_neg (by omega), htake]

/-- A sequence of appends, each with the room it finds: the records of those that return, and the file. -/
def tryAppends (file : Bytes) : List (Bytes × Nat) → List Bytes × Bytes
  | [] => ([], file)
  | (record, room) :: calls =>
    match tryAppend file record room with
    | (.ok (), file) => (record :: (tryAppends file calls).1, (tryAppends file calls).2)
    | (.error _, file) => tryAppends file calls

/-- The append fails and leaves a piece of its frame in the file. -/
def Tears (call : Bytes × Nat) : Prop := 0 < call.2 ∧ call.2 < (frame call.1).length

/-- The append fails and leaves nothing. -/
def Silent (call : Bytes × Nat) : Prop := call.2 = 0

theorem tryAppends_silent (calls : List (Bytes × Nat)) (hsilent : ∀ call ∈ calls, Silent call)
    (file : Bytes) :
    tryAppends file calls = ([], file) := by
  induction calls with
  | nil => rfl
  | cons call calls ih =>
      obtain ⟨hcall, hcalls⟩ := List.forall_mem_cons.mp hsilent
      have hpos := frame_pos call.1
      have hroom : ¬ (frame call.1).length ≤ call.2 := by rw [show call.2 = 0 from hcall]; omega
      simp only [tryAppends, tryAppend_eq, if_neg hroom]
      rw [show call.2 = 0 from hcall, List.take_zero, List.append_nil]
      exact ih hcalls

/-- What a sequence of appends that is not interrupted by a piece leaves: the frames of those that
returned, and nothing readable behind them. -/
theorem tryAppends_split (calls : List (Bytes × Nat)) (hsmall : ∀ call ∈ calls, call.1.length < 2 ^ 32)
    (hlast : calls.Pairwise fun call later => Tears call → Silent later) (file : Bytes) :
    ∃ torn, (tryAppends file calls).2 = file ++ ((tryAppends file calls).1.flatMap frame ++ torn) ∧
      next torn = none ∧
      ∀ record ∈ (tryAppends file calls).1, record.length < 2 ^ 32 := by
  induction calls generalizing file with
  | nil => exact ⟨[], by simp [tryAppends], next_nil, fun _ h => absurd h List.not_mem_nil⟩
  | cons call calls ih =>
      obtain ⟨hrecord, hcalls⟩ := List.forall_mem_cons.mp hsmall
      obtain ⟨hlater, hrest⟩ := List.pairwise_cons.mp hlast
      by_cases hroom : (frame call.1).length ≤ call.2
      · obtain ⟨torn, hsplit, hnone, hrecords⟩ := ih hcalls hrest (append file call.1)
        simp only [tryAppends, tryAppend_eq, if_pos hroom]
        refine ⟨torn, ?_, hnone, List.forall_mem_cons.mpr ⟨hrecord, hrecords⟩⟩
        rw [hsplit, append, List.flatMap_cons, List.append_assoc, List.append_assoc]
      · simp only [tryAppends, tryAppend_eq, if_neg hroom]
        by_cases hzero : call.2 = 0
        · rw [hzero, List.take_zero, List.append_nil]
          exact ih hcalls hrest file
        · -- a piece was written, and nothing is written behind it
          have htears : Tears call := ⟨Nat.pos_of_ne_zero hzero, Nat.lt_of_not_le hroom⟩
          rw [tryAppends_silent calls (fun later hmem => hlater later hmem htears)]
          refine ⟨(frame call.1).take call.2, rfl, ?_, fun _ h => absurd h List.not_mem_nil⟩
          refine next_torn hrecord (List.take_prefix _ _) fun heq => hroom ?_
          rw [← heq, List.length_take]
          exact Nat.min_le_left _ _

/-- **When failed appends are harmless.** Replay delivers exactly the records of the appends that
returned if every record is below 2^32 bytes and nothing reaches the file any more once a failed
append has left a piece in it. -/
theorem failed_appends_harmless (calls : List (Bytes × Nat)) (hsmall : ∀ call ∈ calls, call.1.length < 2 ^ 32)
    (hlast : calls.Pairwise fun call later => Tears call → Silent later) :
    replay (tryAppends [] calls).2 = (tryAppends [] calls).1 := by
  obtain ⟨torn, hsplit, hnone, hrecords⟩ := tryAppends_split calls hsmall hlast []
  rw [hsplit, List.nil_append]
  exact replay_frames _ hrecords hnone

theorem failed_appends_harmless_sample :
    replay (tryAppends [] [([7], 100), ([8], 3), ([9], 0)]).2 = [[7]] :=
  (failed_appends_harmless [([7], 100), ([8], 3), ([9], 0)] (by decide) (by
    have hfull : ¬ Tears ([7], 100) := by rintro ⟨-, hlt⟩; revert hlt; decide
    simp [hfull, Silent])).trans (by decide +kernel)

/-- An append fails after one byte, the next one returns, and its record is not delivered. -/
theorem failed_append_hides_later :
    (tryAppends [] [([7], 1), ([8], 100)]).1 = [[8]] ∧
      replay (tryAppends [] [([7], 1), ([8], 100)]).2 = [] := by
  decide +kernel

/-! ### Zeros behind the log -/

theorem frame_nil : frame [] = List.replicate 8 0 := by decide +kernel

theorem next_zeros {n : Nat} (hn : n < 8) : next (List.replicate n 0) = none := by
  rw [next, if_pos (by rwa [List.length_replicate])]

theorem zeros_eq (n : Nat) :
    List.replicate n (0 : UInt8) = (List.replicate (n / 8) []).flatMap frame ++ List.replicate (n % 8) 0 := by
  have hframes : ∀ m, (List.replicate m []).flatMap frame = List.replicate (8 * m) (0 : UInt8) := by
    intro m
    induction m with
    | zero => rfl
    | succ m ih =>
        rw [List.replicate_succ, List.flatMap_cons, ih, frame_nil,
          List.replicate_append_replicate, Nat.mul_succ, Nat.add_comm]
  rw [hframes, List.replicate_append_replicate, Nat.div_add_mod]

/-- Every eight zeros behind a log are read as one more record, an empty one. -/
theorem replay_zeros (records : List Bytes) (hsmall : ∀ record ∈ records, record.length < 2 ^ 32) (n : Nat) :
    replay (records.flatMap frame ++ List.replicate n 0) = records ++ List.replicate (n / 8) [] := by
  have hall : ∀ record ∈ records ++ List.replicate (n / 8) [], record.length < 2 ^ 32 := by
    intro record hrecord
    rcases List.mem_append.mp hrecord with hrecord | hrecord
    · exact hsmall record hrecord
    · rw [List.eq_of_mem_replicate hrecord]
      decide
  rw [zeros_eq, ← List.append_assoc, ← List.flatMap_append]
  exact replay_frames _ hall (next_zeros (Nat.mod_lt _ (by decide)))

end FileLogStore

end ToyVdb
