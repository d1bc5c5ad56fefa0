import Mathlib.Tactic.Common
import Mathlib.Algebra.Group.Nat.Defs

/-!
# Types shared by the whole database

The small vocabulary of the source: byte strings, vectors, dense internal ids, and the ways a call can
fail. A `float` is carried as its 32 bits, since the only arithmetic the source does on floats is the
distance, which is a parameter of the indexes.

Internal ids (`InternalId`) are plain naturals. In the source they are 32-bit, assigned `0, 1, 2, ...`
and used as array indices; the two agree while fewer than `2^32 - 1` slots are allocated, the last value
being the sentinel `kInvalidId`.
-/

namespace ToyVdb

/-- C++ strings and byte buffers. -/
abbrev Bytes := List UInt8

/-- A vector of `float`s, each by its bits. -/
abbrev Vec := List UInt32

/-- Sentinel for "no id". -/
def kInvalidId : Nat := 2 ^ 32 - 1

/-- How a call can end other than by returning. The first two are the exceptions the source throws; the
others are what the source leaves undefined, and the development proves that no run reaches them. -/
inductive Error
  | invalidArgument (what : String)
  | runtimeError (what : String)
  /-- `std::bad_optional_access`. -/
  | badOptionalAccess
  /-- An array accessed outside its bounds. -/
  | outOfRange
  /-- A loop that was not seen to end. -/
  | outOfFuel
deriving DecidableEq, Repr

/-- A single search hit: `score` is a distance, smaller is closer. -/
structure SearchResult (Score : Type) where
  id : Nat
  score : Score
deriving DecidableEq, Repr

/-- The distance policy an index is instantiated with, and `std::numeric_limits<Score>::max()`. -/
structure Metric (Score : Type) where
  distance : Vec → Vec → Score
  maxScore : Score

/-- ASCII text as a byte string. -/
def ascii (text : String) : Bytes := text.toList.map fun c => UInt8.ofNat c.toNat

end ToyVdb
