import ToyVdb.Types
import Mathlib.Algebra.Group.Int.Defs

/-!
# Exact squared distance

The L2 policy on the values the bits stand for, in exact arithmetic: components in units of `2^-149`, which
every finite `float` is a multiple of, and scores in the square of that unit. Where no rounding happens, as on
small integers, these are the scores of the source.
-/

namespace ToyVdb

/-- The value of a finite `float`, in units of `2^-149`. -/
def floatUnits (bits : UInt32) : Int :=
  let fraction : Nat := bits.toNat % 2 ^ 23
  let exponent : Nat := bits.toNat / 2 ^ 23 % 2 ^ 8
  let magnitude : Nat := if exponent = 0 then fraction else (fraction + 2 ^ 23) * 2 ^ (exponent - 1)
  if bits.toNat / 2 ^ 31 = 0 then magnitude else -(magnitude : Int)

def squaredDistance : Vec → Vec → Int
  | a :: as, b :: bs => (floatUnits a - floatUnits b) * (floatUnits a - floatUnits b) + squaredDistance as bs
  | _, _ => 0

/-- The largest score is that of the largest `float`. -/
def l2 : Metric Int := ⟨squaredDistance, (2 ^ 24 - 1) * 2 ^ (104 + 298)⟩

end ToyVdb
