import CompOrg.Lib.CStdlib
import CompOrg.Lib.Positional
import Mathlib.Logic.Function.Basic

/-! # `writeNumbers` of `fileio.c`

The digits of a number are put into a buffer from its end on, and the part behind the
index `k` is written. The file can be created, and `write` writes all that it is given.
`abs` keeps the least integer, as it does where integers wrap.
-/

namespace CompOrg.FileIO

open Positional

abbrev INT_MIN : Int := -2147483648

def toChar (n : Int) : UInt8 := UInt8.ofNat (n % 256).toNat

def abs (n : Int) : Int := int32 n.natAbs

def digitChar (writeHex : Bool) (m : Int) : UInt8 :=
  if writeHex && m ≥ 10 then toChar (m - 10 + 'A'.toNat) else toChar (m + '0'.toNat)

def base (writeHex : Bool) : Nat := if writeHex then 16 else 10

/-- `do .. while (n > 0)` -/
def digitLoop (writeHex : Bool) : Nat → Int → Int → (Int → UInt8) → Option (Int × (Int → UInt8))
  | 0, _, _, _ => none
  | fuel + 1, n, k, buf =>
      let buf := Function.update buf k (digitChar writeHex (n.tmod (base writeHex)))
      let n := n.tdiv (base writeHex)
      if n > 0 then digitLoop writeHex fuel n (k - 1) buf else some (k - 1, buf)

/-- What survives an iteration, and the bytes written. -/
structure Writer where
  buf : Int → UInt8
  useSign : Bool
  file : List UInt8

/-- `write(fd, buf+k+1, 255-k)` -/
def written (buf : Int → UInt8) (k : Int) : List UInt8 :=
  (List.range (255 - k).toNat).map fun j => buf (k + 1 + j)

/-- One iteration; an `int` has less than 32 digits. -/
def writeNumber (writeHex : Bool) (w : Writer) (n : Int) : Option Writer := do
  let useSign := if n < 0 then true else w.useSign
  let (k, buf) ← digitLoop writeHex 32 (if n < 0 then abs n else n) 255 w.buf
  return {
    buf := buf
    useSign := false
    file := w.file ++ (if useSign then ['-'.toUInt8] else []) ++ written buf k ++ ['\n'.toUInt8] }

def writeLoop (writeHex : Bool) : List Int32 → Writer → Option Writer
  | [], w => some w
  | n :: array, w => do
      let w ← writeNumber writeHex w n.toInt
      writeLoop writeHex array w

/-- The contents of the file; `buf` is what is on the stack. -/
def writeNumbers (writeHex : Bool) (buf : Int → UInt8) (array : List Int32) :
    Option (List UInt8) :=
  (writeLoop writeHex array ⟨buf, false, []⟩).map Writer.file

/-! ## Encoded numbers -/

/-- The figures of base 16, the first ten of which are those of base 10. -/
def figures : List UInt8 :=
  [48, 49, 50, 51, 52, 53, 54, 55, 56, 57, 65, 66, 67, 68, 69, 70]

def figure (d : Nat) : UInt8 := figures.getD d 0

def sign (n : Int) : List UInt8 := if n < 0 then ['-'.toUInt8] else []

/-- The line is the numeral of `n` with its sign in front and a newline behind. -/
def Encodes (writeHex : Bool) (n : Int) (line : List UInt8) : Prop :=
  ∃ ds, Numeral (base writeHex) ds n.natAbs ∧ line = sign n ++ ds.map figure ++ ['\n'.toUInt8]

def encode (writeHex : Bool) (n : Int) : List UInt8 :=
  sign n ++ (Positional.numeral (base writeHex) n.natAbs).map figure ++ ['\n'.toUInt8]

section Digits

variable {writeHex : Bool} {fuel n : Nat} {k : Int} {buf : Int → UInt8}

theorem one_lt_base (writeHex : Bool) : 1 < base writeHex := by
  cases writeHex <;> decide

theorem encodes_iff {m : Int} {line : List UInt8} :
    Encodes writeHex m line ↔ line = encode writeHex m := by
  constructor
  · rintro ⟨ds, hds, rfl⟩
    rw [encode, hds.eq (one_lt_base writeHex)]
  · intro h
    exact ⟨_, numeral_spec (one_lt_base writeHex) _, h⟩

theorem digitChar_eq {d : Nat} (h : d < base writeHex) : digitChar writeHex d = figure d := by
  have hdec : ∀ d : Nat, d < 10 → digitChar false d = figure d := by decide +kernel
  have hhex : ∀ d : Nat, d < 16 → digitChar true d = figure d := by decide +kernel
  cases writeHex with
  | false => exact hdec d h
  | true => exact hhex d h

def slice (buf : Int → UInt8) (k : Int) (len : Nat) : List UInt8 :=
  (List.range len).map fun j => buf (k + 1 + j)

theorem slice_succ (buf : Int → UInt8) (k : Int) (len : Nat) :
    slice buf k (len + 1) = slice buf k len ++ [buf (k + 1 + len)] := by
  simp [slice, List.range_succ]

/-- On numbers that are not negative, `%` and `/` are those of the numeral. -/
theorem digitLoop_step (fuel n : Nat) (k : Int) (buf : Int → UInt8) :
    digitLoop writeHex (fuel + 1) n k buf =
      if base writeHex ≤ n then
        digitLoop writeHex fuel (n / base writeHex : Nat) (k - 1)
          (Function.update buf k (figure (n % base writeHex)))
      else some (k - 1, Function.update buf k (figure n)) := by
  have hb := one_lt_base writeHex
  have hpos : (0 : Int) < (n / base writeHex : Nat) ↔ base writeHex ≤ n := by
    rw [Int.natCast_pos, Nat.div_pos_iff]
    omega
  rw [digitLoop, ← Int.ofNat_tmod, ← Int.ofNat_tdiv, digitChar_eq (Nat.mod_lt _ (by omega))]
  simp only [gt_iff_lt, hpos]
  split
  next => rfl
  next h => rw [Nat.mod_eq_of_lt (Nat.lt_of_not_le h)]

/-- The result is a buffer with `line` in front of what `buf` holds behind `k`. -/
def Puts (k : Int) (buf : Int → UInt8) (line : List UInt8)
    (result : Option (Int × (Int → UInt8))) : Prop :=
  ∃ buf', result = some (k - line.length, buf') ∧
    slice buf' (k - line.length) line.length = line ∧ ∀ i, k < i → buf' i = buf i

theorem puts_single (k : Int) (buf : Int → UInt8) (c : UInt8) :
    Puts k buf [c] (some (k - 1, Function.update buf k c)) := by
  refine ⟨Function.update buf k c, rfl, ?_, fun i hi => ?_⟩
  · simp [slice]
  · exact Function.update_of_ne (by omega) _ _

/-- A character at `k`, and the others in front of it. -/
theorem Puts.snoc {line : List UInt8} {c : UInt8} {result : Option (Int × (Int → UInt8))}
    (h : Puts (k - 1) (Function.update buf k c) line result) : Puts k buf (line ++ [c]) result := by
  obtain ⟨buf', hresult, hslice, hkept⟩ := h
  have hstart : k - (line ++ [c]).length = k - 1 - line.length := by
    rw [List.length_append, List.length_singleton]
    omega
  refine ⟨buf', by rw [hresult, hstart], ?_, fun i hi => ?_⟩
  · rw [hstart, List.length_append, List.length_singleton, slice_succ, hslice,
      show k - 1 - (line.length : Int) + 1 + line.length = k by omega, hkept k (by omega),
      Function.update_self]
  · rw [hkept i (by omega), Function.update_of_ne (by omega)]

/-- The loop puts the numeral in front of the buffer, the last figure first. -/
theorem digitLoop_numeral (hn : n < base writeHex ^ (fuel + 1)) :
    Puts k buf ((Positional.numeral (base writeHex) n).map figure)
      (digitLoop writeHex (fuel + 1) n k buf) := by
  have hb := one_lt_base writeHex
  induction fuel generalizing n k buf with
  | zero =>
      have hlt : n < base writeHex := by simpa using hn
      rw [digitLoop_step, if_neg (by omega), numeral_of_lt hlt]
      exact puts_single k buf (figure n)
  | succ fuel ih =>
      rw [digitLoop_step]
      split
      next hle =>
        rw [numeral_of_le hb hle, List.map_append]
        refine Puts.snoc (ih ?_)
        rw [Nat.pow_succ, Nat.mul_comm] at hn
        exact Nat.div_lt_of_lt_mul hn
      next hlt =>
        rw [numeral_of_lt (Nat.lt_of_not_le hlt)]
        exact puts_single k buf (figure n)

end Digits

/-! ## One number -/

section WriteNumber

variable {writeHex : Bool} {w : Writer} {n : Int}

theorem written_of_puts {buf buf' : Int → UInt8} {k : Int} {line : List UInt8}
    (h : Puts 255 buf line (some (k, buf'))) : written buf' k = line := by
  obtain ⟨buf₁, hresult, hslice, -⟩ := h
  cases hresult
  have hlen : (255 - (255 - (line.length : Int))).toNat = line.length := by omega
  rwa [written, hlen]

theorem abs_eq (hlow : -2147483648 < n) (hhigh : n < 2147483648) : abs n = n.natAbs := by
  have hlow' : -2147483648 ≤ (n.natAbs : Int) := by omega
  exact int32_eq hlow' (by omega)

theorem natAbs_lt (hlow : -2147483648 < n) (hhigh : n < 2147483648) (writeHex : Bool) :
    n.natAbs < base writeHex ^ 32 := by
  have hlt : n.natAbs < 10 ^ 32 := by omega
  have hle : 10 ^ 32 ≤ base writeHex ^ 32 := by cases writeHex <;> decide
  omega

theorem writeNumber_encode (writeHex : Bool) (hlow : -2147483648 < n) (hhigh : n < 2147483648)
    (hsign : w.useSign = false) :
    ∃ buf, writeNumber writeHex w n = some ⟨buf, false, w.file ++ encode writeHex n⟩ := by
  have habs : (if n < 0 then abs n else n) = n.natAbs := by
    split
    next => exact abs_eq hlow hhigh
    next => omega
  have hputs : Puts 255 w.buf ((Positional.numeral (base writeHex) n.natAbs).map figure)
      (digitLoop writeHex 32 n.natAbs 255 w.buf) :=
    digitLoop_numeral (natAbs_lt hlow hhigh writeHex)
  obtain ⟨k, buf, hresult⟩ : ∃ k buf, digitLoop writeHex 32 n.natAbs 255 w.buf = some (k, buf) := by
    obtain ⟨buf, hresult, -⟩ := hputs
    exact ⟨_, buf, hresult⟩
  rw [hresult] at hputs
  refine ⟨buf, ?_⟩
  have huse :
      (if (if n < 0 then true else w.useSign) = true then ['-'.toUInt8] else []) = sign n := by
    rw [hsign, sign]
    split <;> simp
  simp only [writeNumber, habs, hresult, huse]
  simp [written_of_puts hputs, encode]

/-- The least integer is still negative behind `abs`, so the loop ends after one character. -/
theorem writeNumber_min (writeHex : Bool) (w : Writer) :
    ∃ buf line, writeNumber writeHex w INT_MIN = some ⟨buf, false, w.file ++ line⟩ ∧
      line.length = 3 := by
  have habs : (if INT_MIN < 0 then abs INT_MIN else INT_MIN) = INT_MIN := by decide
  have hloop : ∃ c, digitLoop writeHex 32 INT_MIN 255 w.buf =
      some (254, Function.update w.buf 255 c) := by
    cases writeHex <;> exact ⟨_, rfl⟩
  obtain ⟨c, hloop⟩ := hloop
  refine ⟨Function.update w.buf 255 c, ['-'.toUInt8, c, '\n'.toUInt8], ?_, rfl⟩
  simp only [writeNumber, habs, hloop]
  simp [written]

end WriteNumber

/-! ## The whole array -/

section WriteNumbers

/-- What is written for one element: three bytes if it is the least integer. -/
def Written (writeHex : Bool) (n : Int32) (line : List UInt8) : Prop :=
  if n.toInt = INT_MIN then line.length = 3 else line = encode writeHex n.toInt

/-- The file holds the elements one by one, each encoded with a newline behind it. -/
def EncodesAll (writeHex : Bool) (buf : Int → UInt8) (array : List Int32) : Prop :=
  ∃ file lines, writeNumbers writeHex buf array = some file ∧ file = lines.flatten ∧
    List.Forall₂ (fun n line => Encodes writeHex n.toInt line) array lines

variable {writeHex : Bool} {w : Writer} {array : List Int32}

theorem writeLoop_lines (writeHex : Bool) (array : List Int32) (hsign : w.useSign = false) :
    ∃ buf lines, writeLoop writeHex array w = some ⟨buf, false, w.file ++ lines.flatten⟩ ∧
      List.Forall₂ (Written writeHex) array lines := by
  induction array generalizing w with
  | nil =>
      refine ⟨w.buf, [], ?_, .nil⟩
      simp [writeLoop, ← hsign]
  | cons n array ih =>
      have hstep : ∃ buf line, writeNumber writeHex w n.toInt =
          some ⟨buf, false, w.file ++ line⟩ ∧ Written writeHex n line := by
        by_cases hmin : n.toInt = INT_MIN
        · obtain ⟨buf, line, hrun, hlen⟩ := writeNumber_min writeHex w
          exact ⟨buf, line, hmin ▸ hrun, by rwa [Written, if_pos hmin]⟩
        · have hlow : -2147483648 < n.toInt := lt_of_le_of_ne n.le_toInt (Ne.symm hmin)
          obtain ⟨buf, hrun⟩ := writeNumber_encode writeHex hlow n.toInt_lt hsign
          exact ⟨buf, _, hrun, by rw [Written, if_neg hmin]⟩
      obtain ⟨buf, line, hrun, hline⟩ := hstep
      obtain ⟨buf', lines, hloop, hlines⟩ := ih (w := ⟨buf, false, w.file ++ line⟩) rfl
      refine ⟨buf', line :: lines, ?_, .cons hline hlines⟩
      simp [writeLoop, hrun, hloop]

theorem encode_min_length (writeHex : Bool) : 3 < (encode writeHex INT_MIN).length := by
  have hle : base writeHex ≤ INT_MIN.natAbs := by cases writeHex <;> decide
  have hpos := List.length_pos_iff.mpr
    (numeral_ne_nil (base writeHex) (INT_MIN.natAbs / base writeHex))
  rw [encode, numeral_of_le (one_lt_base writeHex) hle]
  simp only [sign, List.length_append, List.length_map, List.length_singleton]
  rw [if_pos (by decide), List.length_singleton]
  omega

theorem flatten_length_le {lines : List (List UInt8)}
    (h : List.Forall₂ (Written writeHex) array lines) :
    lines.flatten.length ≤ ((array.map fun n => encode writeHex n.toInt).flatten).length ∧
      ((∃ n ∈ array, n.toInt = INT_MIN) →
        lines.flatten.length < ((array.map fun n => encode writeHex n.toInt).flatten).length) := by
  induction h with
  | nil => simp
  | @cons n line array lines hline hlines ih =>
      obtain ⟨hle, hlt⟩ := ih
      simp only [List.map_cons, List.flatten_cons, List.length_append]
      unfold Written at hline
      by_cases hmin : n.toInt = INT_MIN
      · rw [if_pos hmin] at hline
        have hthree := encode_min_length writeHex
        rw [hmin]
        exact ⟨by omega, fun _ => by omega⟩
      · rw [if_neg hmin] at hline
        rw [hline]
        refine ⟨by omega, ?_⟩
        rintro ⟨m, hm, heq⟩
        rcases List.mem_cons.mp hm with rfl | hm
        · exact (hmin heq).elim
        · have := hlt ⟨m, hm, heq⟩
          omega

theorem forall₂_encodes_iff {lines : List (List UInt8)} :
    List.Forall₂ (fun n line => Encodes writeHex n.toInt line) array lines ↔
      lines = array.map fun n => encode writeHex n.toInt := by
  have hmap : lines = array.map (fun n => encode writeHex n.toInt) ↔
      List.Forall₂ Eq lines (array.map fun n => encode writeHex n.toInt) := by
    rw [List.forall₂_eq_eq_eq]
  rw [hmap, List.forall₂_map_right_iff]
  simp only [encodes_iff]
  exact ⟨List.Forall₂.flip, List.Forall₂.flip⟩

/-- The elements are encoded unless the least integer is among them. -/
theorem encodesAll_iff (writeHex : Bool) (buf : Int → UInt8) (array : List Int32) :
    EncodesAll writeHex buf array ↔ ∀ n ∈ array, n.toInt ≠ INT_MIN := by
  obtain ⟨buf', lines, hrun, hlines⟩ := writeLoop_lines (w := ⟨buf, false, []⟩) writeHex array rfl
  have hfile : writeNumbers writeHex buf array = some lines.flatten := by
    rw [writeNumbers, hrun]
    rfl
  constructor
  · rintro ⟨file, expected, hsome, rfl, hexpected⟩ n hn hmin
    obtain rfl := forall₂_encodes_iff.mp hexpected
    have heq := Option.some.inj (hfile.symm.trans hsome)
    have hlt := (flatten_length_le hlines).2 ⟨n, hn, hmin⟩
    rw [heq] at hlt
    exact Nat.lt_irrefl _ hlt
  · intro h
    refine ⟨lines.flatten, lines, hfile, rfl, ?_⟩
    refine ((List.forall₂_and_left array lines).mpr ⟨h, hlines⟩).imp ?_
    rintro n line ⟨hmin, hline⟩
    rw [Written, if_neg hmin] at hline
    exact encodes_iff.mpr hline

/-- In base 10 the least integer is written as `-(`. -/
theorem min_not_encoded :
    writeNumbers false (fun _ => 0) [-2147483648] = some [45, 40, 10] ∧
      ¬ EncodesAll false (fun _ => 0) [-2147483648] := by
  have hrun : writeNumbers false (fun _ => 0) [-2147483648] = some [45, 40, 10] := by
    decide +kernel
  refine ⟨hrun, ?_⟩
  rintro ⟨file, lines, hsome, rfl, hlines⟩
  obtain rfl := forall₂_encodes_iff.mp hlines
  have heq := congrArg List.length (Option.some.inj (hrun.symm.trans hsome))
  have hlong : 3 < (encode false (-2147483648 : Int32).toInt).length := encode_min_length false
  simp only [List.map_singleton, List.flatten_singleton] at heq
  rw [← heq] at hlong
  exact absurd hlong (by decide)

/-- `-AB` and `4F` -/
example : writeNumbers true (fun _ => 0) [-171, 79] = some [45, 65, 66, 10, 52, 70, 10] := by
  decide +kernel

end WriteNumbers

end CompOrg.FileIO
