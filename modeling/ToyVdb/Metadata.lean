import Mathlib.Data.Finmap
import ToyVdb.Types

/-!
# Metadata and filters

Per-vector metadata, the three-way comparison of metadata values, and the filter expression tree.

A `double` is carried as its 64 bits. The comparison needs two things of it: the IEEE order, in which a
NaN is below, above and equal to nothing, and the conversion from 64-bit integers, which rounds to the
nearest double and to the even one on a tie.

The metadata map is unordered in the source, so here it is a finite map with no order at all. Where the
source iterates over it, when encoding, the order is a parameter.
-/

namespace ToyVdb

/-- `std::variant<std::int64_t, double, std::string, bool>`. -/
inductive MetaValue
  | int64 (v : Int64)
  | double (bits : UInt64)
  | string (s : Bytes)
  | bool (b : Bool)
deriving DecidableEq

/-- Per-vector metadata: a flat key to value map. -/
abbrev Metadata := Finmap fun _ : Bytes => MetaValue

namespace Double

/-- The exponent is all ones and the mantissa is not zero. -/
def isNaN (bits : UInt64) : Bool := decide (0x7FF0000000000000 < bits.toNat % 2 ^ 63)

/-- Doubles that are not NaN are ordered as sign and magnitude; both zeros are at `0`. -/
def key (bits : UInt64) : Int :=
  if bits.toNat < 2 ^ 63 then bits.toNat else -((bits.toNat % 2 ^ 63 : Nat) : Int)

/-- `a < b` on doubles. -/
def lt (a b : UInt64) : Bool := !isNaN a && !isNaN b && decide (key a < key b)

/-- The bits of the double nearest to a natural below `2^64`, ties to even. The implicit leading bit of
the mantissa is added into the exponent field, so a mantissa that rounds up to `2^53` carries into it. -/
def ofNat (n : Nat) : Nat :=
  if n = 0 then 0
  else
    let e := Nat.log2 n
    if e ≤ 52 then (e + 1022) * 2 ^ 52 + n * 2 ^ (52 - e)
    else
      let unit := 2 ^ (e - 52)
      let up := decide (unit < 2 * (n % unit)) ||
        (decide (2 * (n % unit) = unit) && decide (n / unit % 2 = 1))
      (e + 1022) * 2 ^ 52 + n / unit + up.toNat

/-- `static_cast<double>` of a 64-bit integer. -/
def ofInt64 (v : Int64) : UInt64 :=
  UInt64.ofNat (ofNat v.toInt.natAbs + if v.toInt < 0 then 2 ^ 63 else 0)

end Double

/-- Integers and doubles as a number. -/
def asNumber : MetaValue → Option UInt64
  | .int64 v => some (Double.ofInt64 v)
  | .double bits => some bits
  | .string _ => none
  | .bool _ => none

/-- Three-way compare: negative, zero or positive, or nothing when the values are not comparable.
Integers and doubles compare numerically across types, strings and bools only against their own type. -/
def compare (a b : MetaValue) : Option Int :=
  match asNumber a, asNumber b with
  | some x, some y => some (if Double.lt x y then -1 else if Double.lt y x then 1 else 0)
  | _, _ =>
    match a, b with
    | .string s, .string t => some (if s < t then -1 else if t < s then 1 else 0)
    | .bool p, .bool q => some (if p = q then 0 else if p then 1 else -1)
    | _, _ => none

/-- The comparison operators of a filter leaf. -/
inductive Cmp
  | eq | ne | lt | le | gt | ge
deriving DecidableEq

/-- A composable metadata filter: comparisons and set membership at the leaves, AND, OR and NOT inside. -/
inductive Filter
  | cmp (key : Bytes) (op : Cmp) (value : MetaValue)
  | isIn (key : Bytes) (set : List MetaValue)
  | allOf (children : List Filter)
  | anyOf (children : List Filter)
  | negate (child : Filter)

namespace Filter

def eq (key : Bytes) (v : MetaValue) : Filter := .cmp key .eq v
def ne (key : Bytes) (v : MetaValue) : Filter := .cmp key .ne v
def lt (key : Bytes) (v : MetaValue) : Filter := .cmp key .lt v
def le (key : Bytes) (v : MetaValue) : Filter := .cmp key .le v
def gt (key : Bytes) (v : MetaValue) : Filter := .cmp key .gt v
def ge (key : Bytes) (v : MetaValue) : Filter := .cmp key .ge v

def evalCmp (c : Int) : Cmp → Bool
  | .eq => decide (c = 0)
  | .ne => decide (c ≠ 0)
  | .lt => decide (c < 0)
  | .le => decide (c ≤ 0)
  | .gt => decide (0 < c)
  | .ge => decide (0 ≤ c)

mutual

/-- Whether the metadata passes the filter. A missing key never matches a leaf. -/
def matchesMeta (m : Metadata) : Filter → Bool
  | .cmp key op value =>
    match m.lookup key with
    | none => false
    | some found =>
      match compare found value with
      | none => false
      | some c => evalCmp c op
  | .isIn key set =>
    match m.lookup key with
    | none => false
    | some found => set.any fun v => decide (compare found v = some 0)
  | .allOf children => matchesAll m children
  | .anyOf children => matchesAny m children
  | .negate child => !matchesMeta m child

def matchesAll (m : Metadata) : List Filter → Bool
  | [] => true
  | child :: rest => matchesMeta m child && matchesAll m rest

def matchesAny (m : Metadata) : List Filter → Bool
  | [] => false
  | child :: rest => matchesMeta m child || matchesAny m rest

end

end Filter

end ToyVdb
