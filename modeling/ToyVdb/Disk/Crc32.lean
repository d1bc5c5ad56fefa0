import ToyVdb.Types
import Mathlib.Logic.Function.Iterate

/-!
# The checksum

The table-driven checksum of the log's records, with the constant the source has.
-/

namespace ToyVdb

def crcPolynomial : UInt32 := 0xEDB88820

/-- One bit of the reflected division. -/
def crcStep (c : UInt32) : UInt32 := if c &&& 1 ≠ 0 then crcPolynomial ^^^ (c >>> 1) else c >>> 1

/-- The table has the eight-fold step of every byte. -/
def kCrc32Table : List UInt32 := (List.range 256).map fun i => crcStep^[8] (UInt32.ofNat i)

def crc32 (data : Bytes) : UInt32 :=
  let update (c : UInt32) (b : UInt8) : UInt32 :=
    kCrc32Table.getD (c.toUInt8 ^^^ b).toNat 0 ^^^ (c >>> 8)
  data.foldl update 0xFFFFFFFF ^^^ 0xFFFFFFFF

end ToyVdb
