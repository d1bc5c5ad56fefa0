import ToyVdb.Disk.Model

/-!
# Reading back what was written

A frame is read back with whatever follows it, and a proper piece of one is not read at all, so a log of
frames is read back up to the first place where something is missing. A blob is read back as it was put.
-/

namespace ToyVdb

open LittleEndian

namespace FileLogStore

variable {record : Bytes}

theorem length_frame (record : Bytes) : (frame record).length = 8 + record.length := by
  simp only [frame, List.length_append, length_bytes]

theorem next_header {crc : Nat} (hcrc : crc < 2 ^ 32) {payload : Bytes} (hsmall : payload.length < 2 ^ 32)
    (rest : Bytes) :
    next (bytes 4 crc ++ bytes 4 payload.length ++ payload ++ rest) =
      if (crc32 payload).toNat ≠ crc then none else some (payload, rest) := by
  have hlength : (bytes 4 crc ++ bytes 4 payload.length ++ payload).length = 8 + payload.length := by
    simp only [List.length_append, length_bytes]
  generalize hfile : bytes 4 crc ++ bytes 4 payload.length ++ payload ++ rest = file
  have hlen : ¬ file.length < 8 := by
    rw [← hfile, List.length_append, hlength]
    omega
  have hsum : file.take 4 = bytes 4 crc := by
    rw [← hfile, List.append_assoc, List.append_assoc, List.take_left' (length_bytes _ _)]
  have hsize : (file.drop 4).take 4 = bytes 4 payload.length := by
    rw [← hfile, List.append_assoc, List.append_assoc, List.drop_left' (length_bytes _ _),
      List.take_left' (length_bytes _ _)]
  have hbody : file.drop 8 = payload ++ rest := by
    rw [← hfile, List.append_assoc, List.drop_left' (by simp only [List.length_append, length_bytes])]
  have hrest : file.drop (8 + payload.length) = rest := by
    rw [← hfile, List.drop_left' hlength]
  rw [next, if_neg hlen]
  simp only [hsum, hsize, hbody, hrest, value_bytes_four hcrc, value_bytes_four hsmall, List.take_left,
    Nat.lt_irrefl, if_false]

theorem next_frame (hsmall : record.length < 2 ^ 32) (rest : Bytes) :
    next (frame record ++ rest) = some (record, rest) := by
  rw [frame, next_header (crc32 record).toNat_lt hsmall rest, if_neg (not_not.mpr rfl)]

theorem next_torn (hsmall : record.length < 2 ^ 32) {torn : Bytes} (hpiece : torn <+: frame record)
    (hne : torn ≠ frame record) : next torn = none := by
  obtain ⟨missing, hsplit⟩ := hpiece
  have hmissing : missing ≠ [] := by
    rintro rfl
    exact hne (by rw [← hsplit, List.append_nil])
  have hlen := congrArg List.length hsplit
  rw [List.length_append, length_frame] at hlen
  have hpos := List.length_pos_iff.mpr hmissing
  by_cases hheader : torn.length < 8
  · rw [next, if_pos hheader]
  · have hsize : (torn.drop 4).take 4 = bytes 4 record.length := by
      have hdrop : torn.drop 4 ++ missing = bytes 4 record.length ++ record := by
        rw [← List.drop_append_of_le_length (by omega), hsplit, frame, List.append_assoc,
          List.drop_left' (length_bytes _ _)]
      have htake := congrArg (List.take 4) hdrop
      rwa [List.take_append_of_le_length (by rw [List.length_drop]; omega),
        List.take_left' (length_bytes _ _)] at htake
    have hpayload : ((torn.drop 8).take record.length).length < record.length := by
      rw [List.length_take, List.length_drop]
      omega
    rw [next, if_neg hheader]
    simp only [hsize, value_bytes_four hsmall, if_pos hpayload]

theorem next_nil : next [] = none := rfl

theorem frame_pos (record : Bytes) : 0 < (frame record).length := by
  rw [length_frame]
  omega

/-- A log is read back up to whatever is no frame. -/
theorem replay_frames (records : List Bytes) (hsmall : ∀ record ∈ records, record.length < 2 ^ 32)
    {tail : Bytes}
    (htail : next tail = none) : replay (records.flatMap frame ++ tail) = records :=
  Framing.parse_file records (fun record hrecord => next_frame (hsmall record hrecord)) frame_pos htail

theorem replay_append (records : List Bytes) (hsmall : ∀ record ∈ records, record.length < 2 ^ 32)
    (tail : Bytes) :
    ∃ more, replay (records.flatMap frame ++ tail) = records ++ more := by
  refine ⟨_, Framing.parse_frames records (fun record hrecord => next_frame (hsmall record hrecord)) tail ?_⟩
  have hle := Framing.length_le_flatMap records frame_pos
  rw [List.length_append]
  omega

end FileLogStore

/-! ### Snapshots -/

theorem length_snapshotFrame (record : Bytes) : (snapshotFrame record).length = 4 + record.length := by
  simp only [snapshotFrame, List.length_append, length_bytes]

theorem nextSnapshotRecord_frame {record : Bytes} (hsmall : record.length < 2 ^ 32) (rest : Bytes) :
    nextSnapshotRecord (snapshotFrame record ++ rest) = some (record, rest) := by
  have hlen : (snapshotFrame record ++ rest).length = 4 + record.length + rest.length := by
    rw [List.length_append, length_snapshotFrame]
  have hsize : (snapshotFrame record ++ rest).take 4 = bytes 4 record.length := by
    rw [snapshotFrame, List.append_assoc, List.take_left' (length_bytes _ _)]
  have hbody : (snapshotFrame record ++ rest).drop 4 = record ++ rest := by
    rw [snapshotFrame, List.append_assoc, List.drop_left' (length_bytes _ _)]
  have hrest : (snapshotFrame record ++ rest).drop (4 + record.length) = rest :=
    List.drop_left' (length_snapshotFrame record)
  rw [nextSnapshotRecord, if_neg (by omega)]
  simp only [hsize, hbody, hrest, value_bytes_four hsmall, List.take_left]
  rw [if_neg (by omega)]

theorem snapshotFrame_pos (record : Bytes) : 0 < (snapshotFrame record).length := by
  rw [length_snapshotFrame]
  omega

theorem snapshotRecords_frames (records : List Bytes) (hsmall : ∀ record ∈ records, record.length < 2 ^ 32) :
    snapshotRecords (records.flatMap snapshotFrame) = records := by
  have hend : nextSnapshotRecord [] = none := rfl
  have hparse := Framing.parse_file records
    (fun record hrecord => nextSnapshotRecord_frame (hsmall record hrecord)) snapshotFrame_pos hend
  rwa [List.append_nil] at hparse

theorem nextSnapshotRecord_torn {record torn : Bytes} (hsmall : record.length < 2 ^ 32)
    (hpiece : torn <+: snapshotFrame record)
    (hne : torn ≠ snapshotFrame record) : nextSnapshotRecord torn = none := by
  have hlt : torn.length < 4 + record.length := by
    rw [← length_snapshotFrame]
    exact lt_of_le_of_ne hpiece.length_le fun heq => hne (hpiece.eq_of_length heq)
  by_cases hheader : torn.length < 4
  · rw [nextSnapshotRecord, if_pos hheader]
  · have hsize : torn.take 4 = bytes 4 record.length := by
      rw [List.prefix_iff_eq_take.mp hpiece, List.take_take,
        Nat.min_eq_left (Nat.not_lt.mp hheader), snapshotFrame,
        List.take_left' (length_bytes _ _)]
    rw [nextSnapshotRecord, if_neg hheader]
    simp only [hsize, value_bytes_four hsmall, if_pos hlt]

/-- A cut snapshot is read up to the record the cut is in. -/
theorem snapshotRecords_take (records : List Bytes)
    (hsmall : ∀ record ∈ records, record.length < 2 ^ 32) (n : Nat) :
    ∃ m, snapshotRecords ((records.flatMap snapshotFrame).take n) = records.take m := by
  obtain ⟨m, hparse, -⟩ := Framing.parse_take records
    (fun record hrecord => nextSnapshotRecord_frame (hsmall record hrecord)) snapshotFrame_pos
    (show nextSnapshotRecord [] = none from rfl)
    (fun record hrecord torn => nextSnapshotRecord_torn (hsmall record hrecord)) n
  exact ⟨m, hparse⟩

namespace FileBlobStore

theorem lookup_put (files : FileBlobStore) (key data : Bytes) :
    (put files key data).lookup key = some data := by
  rw [put, rename, Finmap.lookup_insert]
  exact Finmap.lookup_insert _

/-- The temporary file is gone, and the other blobs are as they were. -/
theorem lookup_put_of_ne (files : FileBlobStore) {key name : Bytes} (hname : name ≠ key) (data : Bytes) :
    (put files key data).lookup name = if name = key ++ ascii ".tmp" then none else files.lookup name := by
  rw [put, rename, Finmap.lookup_insert]
  show Finmap.lookup name ((Finmap.erase (key ++ ascii ".tmp")
    (files.insert (key ++ ascii ".tmp") data)).insert key data) = _
  rw [Finmap.lookup_insert_of_ne _ hname]
  by_cases htmp : name = key ++ ascii ".tmp"
  · rw [if_pos htmp, htmp, Finmap.lookup_erase]
  · rw [if_neg htmp, Finmap.lookup_erase_ne htmp, Finmap.lookup_insert_of_ne _ htmp]

end FileBlobStore

end ToyVdb
