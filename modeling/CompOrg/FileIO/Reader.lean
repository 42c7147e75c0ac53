import CompOrg.Lib.CStdlib
import Mathlib.Logic.Function.Basic

/-! # `readNumbers` of `fileio.c`

The scanner reads a file piece by piece, one `read` call each, into a buffer
that keeps the bytes of earlier pieces behind the current one. The copy of a
word into `str` is unbounded here; the accesses to the three arrays are recorded.
A loop has fuel, and `none` is also the result where an `int` overflows.
-/

namespace CompOrg.FileIO

def isBlank (cha : UInt8) : Bool :=
  cha == ' '.toUInt8 || cha == '\n'.toUInt8 || cha == '\t'.toUInt8

inductive Access
  /-- `buffer[i]` after a `read` of `buffLen` bytes. -/
  | loadBuffer (i buffLen : Nat)
  /-- `str[j] = ..` -/
  | storeStr (j : Nat)
  /-- `*(*array + count) = ..` with space for `limit` elements. -/
  | storeArray (count limit : Nat)
  deriving DecidableEq

/-! ## One word -/

structure WordScan where
  i : Nat
  j : Nat
  cha : UInt8
  lenStr : Nat
  str : Nat → UInt8
  accesses : List Access

/-- `while (cha is not blank && i < buffLen)`. The byte behind the last one is
loaded as well, but it does not decide anything. -/
def wordLoop (buffer : Nat → UInt8) (buffLen : Nat) : Nat → WordScan → Option WordScan
  | 0, _ => none
  | fuel + 1, s =>
      if !isBlank s.cha && s.i < buffLen then
        wordLoop buffer buffLen fuel
          { i := s.i + 1
            j := s.j + 1
            cha := buffer (s.i + 1)
            lenStr := s.lenStr + 1
            str := Function.update s.str s.j s.cha
            accesses := .loadBuffer (s.i + 1) buffLen :: .storeStr s.j :: s.accesses }
      else some s

/-- The characters before the terminating zero that `memset` leaves. -/
def cString (str : Nat → UInt8) (lenStr : Nat) : List UInt8 := (List.range lenStr).map str

def toInteger (readHex : Bool) (str : List UInt8) : Int :=
  if readHex then
    if str.length > 2 && str[0]? == some '0'.toUInt8 && str[1]? == some 'x'.toUInt8 then
      int32 (strtol str 0)
    else int32 (strtol str 16)
  else atoi str

/-! ## One piece -/

structure Reader where
  array : Nat → Int
  limit : Nat
  count : Nat
  numberRead : Nat
  accesses : List Access

def growLimit (numberRead limit : Nat) : Option Nat :=
  if numberRead = limit then addInt limit 50 else some limit

/-- Add an integer to the array; `realloc` keeps what is there. -/
def storeInteger (r : Reader) (integer : Int) : Option Reader := do
  let count ← addInt r.count 1
  let numberRead ← addInt r.numberRead 1
  let limit ← growLimit numberRead r.limit
  return {
    array := Function.update r.array r.count integer
    limit := limit
    count := count
    numberRead := numberRead
    accesses := .storeArray r.count r.limit :: r.accesses }

def scanLoop (readHex : Bool) (buffer : Nat → UInt8) (buffLen : Nat) :
    Nat → Nat → Reader → Option Reader
  | 0, _, _ => none
  | fuel + 1, i, r =>
      if i < buffLen then
        let accesses := .loadBuffer i buffLen :: r.accesses
        if !isBlank (buffer i) then do
          let s ← wordLoop buffer buffLen (buffLen + 1) ⟨i, 0, buffer i, 0, fun _ => 0, accesses⟩
          let r ← storeInteger { r with accesses := s.accesses }
            (toInteger readHex (cString s.str s.lenStr))
          scanLoop readHex buffer buffLen fuel s.i r
        else scanLoop readHex buffer buffLen fuel (i + 1) { r with accesses := accesses }
      else some r

/-! ## The whole file -/

def fill (buffer : Nat → UInt8) (piece : List UInt8) (i : Nat) : UInt8 := piece[i]?.getD (buffer i)

def readLoop (readHex : Bool) : List (List UInt8) → (Nat → UInt8) → Reader → Option Reader
  | [], _, r => some r
  | piece :: pieces, buffer, r =>
      if piece.length > 0 then do
        let r ← scanLoop readHex (fill buffer piece) piece.length (piece.length + 1) 0 r
        readLoop readHex pieces (fill buffer piece) r
      else some r

/-- What `malloc` leaves in the array and in the buffer. -/
structure Fresh where
  array : Nat → Int
  buffer : Nat → UInt8

def Fresh.reader (m : Fresh) : Reader := ⟨m.array, 100, 0, 0, []⟩

/-- The result with the reader's variables; `none` for a file that cannot be opened. -/
def readNumbers (readHex : Bool) (m : Fresh) : Option (List (List UInt8)) → Option (Int × Reader)
  | none => some (-1, m.reader)
  | some pieces => (readLoop readHex pieces m.buffer m.reader).map fun r => (r.numberRead, r)

/-- The elements the caller uses: the first so many as the result says. -/
def stored (result : Int × Reader) : List Int :=
  (List.range result.1.toNat).map result.2.array

end CompOrg.FileIO
