import ToyVdb.Disk.Crc32
import ToyVdb.Lib.Framing
import ToyVdb.Lib.LittleEndian
import Mathlib.Data.Finmap

/-!
# What is on disk

The write-ahead log is a file of frames, appended to and read from the front; the blob store is a directory
of files, written through a temporary name. A failing system call is not modelled: what is written is
written, and what is read back is what was written.
-/

namespace ToyVdb

open LittleEndian

/-! ### The log -/

namespace FileLogStore

/-- A frame: checksum, length, payload. -/
def frame (record : Bytes) : Bytes := bytes 4 (crc32 record).toNat ++ bytes 4 record.length ++ record

def append (file record : Bytes) : Bytes := file ++ frame record

/-- The record at the front of the file and what is behind it. There is none at the end of the file, in
front of a torn header or payload, and where the checksum does not match. -/
def next (file : Bytes) : Option (Bytes × Bytes) :=
  if file.length < 8 then none
  else
    let crc := value (file.take 4)
    let len := value ((file.drop 4).take 4)
    let payload := (file.drop 8).take len
    if payload.length < len then none
    else if (crc32 payload).toNat ≠ crc then none
    else some (payload, file.drop (8 + len))

/-- The records `replay` delivers, in order. -/
def replay (file : Bytes) : List Bytes := Framing.parse next file.length file

end FileLogStore

/-! ### The blobs -/

/-- The files of the blob directory. -/
abbrev FileBlobStore := Finmap fun _ : Bytes => Bytes

/-- A byte string as text, for messages. -/
def text (bs : Bytes) : String := String.ofList (bs.map fun b => Char.ofNat b.toNat)

namespace FileBlobStore

def rename (files : FileBlobStore) (src dst : Bytes) : FileBlobStore :=
  match files.lookup src with
  | some data => (files.erase src).insert dst data
  | none => files

/-- Write to a temporary file, then rename it. -/
def put (files : FileBlobStore) (key data : Bytes) : FileBlobStore :=
  rename (files.insert (key ++ ascii ".tmp") data) (key ++ ascii ".tmp") key

def get (files : FileBlobStore) (key : Bytes) : Except Error Bytes :=
  match files.lookup key with
  | some data => .ok data
  | none => .error (.runtimeError ("FileBlobStore: no such key: " ++ text key))

def contains (files : FileBlobStore) (key : Bytes) : Bool := (files.lookup key).isSome

end FileBlobStore

/-- A persistence directory. -/
structure Disk where
  wal : Bytes := []
  blobs : FileBlobStore := ∅
deriving DecidableEq

/-! ### Snapshot records -/

/-- A snapshot record: length, payload. -/
def snapshotFrame (record : Bytes) : Bytes := bytes 4 record.length ++ record

def nextSnapshotRecord (data : Bytes) : Option (Bytes × Bytes) :=
  if data.length < 4 then none
  else
    let len := value (data.take 4)
    if data.length < 4 + len then none else some ((data.drop 4).take len, data.drop (4 + len))

def snapshotRecords (data : Bytes) : List Bytes := Framing.parse nextSnapshotRecord data.length data

end ToyVdb
