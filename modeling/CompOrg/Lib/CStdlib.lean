import Mathlib.Data.Int.Notation
import Mathlib.Data.Nat.Notation
import Mathlib.Order.Lattice
import Mathlib.Algebra.Order.Group.Int

/-! # C integers and their numerals

An `int` has 32 bits and a `long` 64. Converting to `int` keeps the low bits, an
`int` sum out of range is undefined, and `strtol` clamps to the range of `long`.
-/

namespace CompOrg

/-- Reduce to `int`. -/
def int32 (n : Int) : Int := n.bmod 4294967296

abbrev INT_MAX : Nat := 2147483647

/-- The sum of two non-negative `int`s. -/
def addInt (m n : Nat) : Option Nat := if m + n ≤ INT_MAX then some (m + n) else none

/-- The result of an operation on `int`s, undefined out of range. -/
def intResult (n : Int) : Option Int :=
  if -2147483648 ≤ n ∧ n ≤ 2147483647 then some n else none

theorem intResult_eq_some {n : Int} (hlow : -2147483648 ≤ n) (hhigh : n ≤ 2147483647) :
    intResult n = some n := if_pos ⟨hlow, hhigh⟩

theorem int32_eq {n : Int} (hlow : -2147483648 ≤ n) (hhigh : n ≤ 2147483647) : int32 n = n := by
  rw [int32, Int.bmod_def]
  split <;> omega

theorem addInt_eq_some {m n : Nat} (h : m + n ≤ INT_MAX) : addInt m n = some (m + n) := if_pos h

theorem addInt_eq_none {m n : Nat} (h : INT_MAX < m + n) : addInt m n = none :=
  if_neg (not_le.mpr h)

/-- The value of a numeral, clamped to `long`. -/
def toLong (negative : Bool) (n : Nat) : Int :=
  max (-2 ^ 63) (min (2 ^ 63 - 1) (if negative then -(n : Int) else n))

/-! ## Numerals -/

def isspace (c : UInt8) : Bool := c == ' '.toUInt8 || (9 ≤ c && c ≤ 13)

/-- A character that is no digit in any base has the value 36. -/
def digitValue (c : UInt8) : Nat :=
  if '0'.toUInt8 ≤ c && c ≤ '9'.toUInt8 then (c - '0'.toUInt8).toNat
  else if 'a'.toUInt8 ≤ c && c ≤ 'z'.toUInt8 then (c - 'a'.toUInt8).toNat + 10
  else if 'A'.toUInt8 ≤ c && c ≤ 'Z'.toUInt8 then (c - 'A'.toUInt8).toNat + 10
  else 36

def hexPrefixed (s : List UInt8) : Bool :=
  s.take 2 == ['0'.toUInt8, 'x'.toUInt8] || s.take 2 == ['0'.toUInt8, 'X'.toUInt8]

def magnitude (base : Nat) (s : List UInt8) : Nat :=
  (s.takeWhile fun c => digitValue c < base).foldl (fun n c => n * base + digitValue c) 0

/-- The digits behind white space, a sign and a prefix; base 0 is told by the prefix. -/
def strtol (nptr : List UInt8) (base : Nat) : Int :=
  let s := nptr.dropWhile isspace
  let negative := s.head? == some '-'.toUInt8
  let s := if negative || s.head? == some '+'.toUInt8 then s.tail else s
  let hex := (base == 0 || base == 16) && hexPrefixed s
  let base :=
    if base = 0 then if hex then 16 else if s.head? == some '0'.toUInt8 then 8 else 10 else base
  toLong negative (magnitude base (if hex then s.drop 2 else s))

def atoi (nptr : List UInt8) : Int := int32 (strtol nptr 10)

/-- `atoi` where `long` has 32 bits. -/
def atoi32 (nptr : List UInt8) : Int := max (-2 ^ 31) (min (2 ^ 31 - 1) (strtol nptr 10))

end CompOrg
