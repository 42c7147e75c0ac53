import CompOrg.Bits.Puzzles
import CompOrg.Lib.Figures

/-! # The binary displays of `binprint.c`

The four functions shift their argument into an `int` and print its lowest bit, from the
highest bit on. What they print is the two's complement numeral of the argument.
-/

namespace CompOrg.Bits

/-- The loop of the four functions, for a type of `size` bytes. -/
def binPrint (size : Nat) (temp : Nat → CInt) : List UInt8 :=
  ((List.range (size * 8)).reverse.map fun bitsize =>
    if temp bitsize &&& 1 ≠ 0 then '1'.toUInt8 else '0'.toUInt8) ++ ['\n'.toUInt8]

def binInt (ii : BitVec 32) : List UInt8 := binPrint 4 fun bitsize => ii.sshiftRight bitsize

/-- A `char` is signed, and is widened before it is shifted. -/
def binByte (ch : BitVec 8) : List UInt8 :=
  binPrint 1 fun bitsize => (ch.signExtend 32).sshiftRight bitsize

def binShort (si : BitVec 16) : List UInt8 :=
  binPrint 2 fun bitsize => (si.signExtend 32).sshiftRight bitsize

/-- Only the low half of the shifted number is kept. -/
def binLong (li : BitVec 64) : List UInt8 :=
  binPrint 8 fun bitsize => (li.sshiftRight bitsize).setWidth 32

/-- A digit for each bit; the first one counts negative. -/
structure TwosNumeral {w : Nat} (ds : List Nat) (x : BitVec w) : Prop where
  length : ds.length = w
  below : ∀ d ∈ ds, d < 2
  unsigned : Nat.ofDigits 2 ds.reverse = x.toNat
  signed : ((Nat.ofDigits 2 ds.reverse : Nat) : Int) - (ds.headD 0 * 2 ^ w : Nat) = x.toInt

def binLine (ds : List Nat) : List UInt8 :=
  ds.map (fun d => if d = 0 then '0'.toUInt8 else '1'.toUInt8) ++ ['\n'.toUInt8]

section Lines

variable {w : Nat} {x : BitVec w}

def bits (x : BitVec w) (n : Nat) : List Nat := (List.range n).map fun i => (x.getLsbD i).toNat

/-- The bits with the lowest first are the number, as far as they go. -/
theorem ofDigits_bits (x : BitVec w) (n : Nat) :
    Nat.ofDigits 2 (bits x n) = x.toNat % 2 ^ n := by
  induction n with
  | zero => simp [bits, Nat.mod_one]
  | succ n ih =>
      have hbit : (x.getLsbD n).toNat = x.toNat / 2 ^ n % 2 := by
        rw [← BitVec.testBit_toNat, Nat.testBit_eq_decide_div_mod_eq]
        rcases Nat.mod_two_eq_zero_or_one (x.toNat / 2 ^ n) with h | h <;> simp [h]
      have hlength : (bits x n).length = n := by rw [bits, List.length_map, List.length_range]
      rw [show bits x (n + 1) = bits x n ++ [(x.getLsbD n).toNat] by simp [bits, List.range_succ],
        Nat.ofDigits_append, ih, hlength, Nat.ofDigits_singleton, hbit, Nat.mod_pow_succ]

theorem headD_bits (x : BitVec w) : (bits x w).reverse.headD 0 = x.msb.toNat := by
  rw [BitVec.msb_eq_getLsbD_last]
  cases w with
  | zero => simp [bits]
  | succ w => simp [bits, List.range_succ]

theorem twosNumeral_bits (x : BitVec w) : TwosNumeral (bits x w).reverse x where
  length := by rw [List.length_reverse, bits, List.length_map, List.length_range]
  below d hd := by
    obtain ⟨i, -, rfl⟩ := List.mem_map.mp (List.mem_reverse.mp hd)
    exact Bool.toNat_lt _
  unsigned := by rw [List.reverse_reverse, ofDigits_bits, Nat.mod_eq_of_lt x.isLt]
  signed := by
    rw [List.reverse_reverse, ofDigits_bits, Nat.mod_eq_of_lt x.isLt, headD_bits,
      BitVec.toInt_eq_msb_cond]
    cases x.msb <;> simp

theorem binPrint_eq {size : Nat} {x : BitVec w} {temp : Nat → CInt} (hsize : size * 8 = w)
    (h : ∀ i < w, (temp i).getLsbD 0 = x.getLsbD i) :
    binPrint size temp = binLine (bits x w).reverse := by
  subst hsize
  rw [binPrint, binLine, bits, ← List.map_reverse, List.map_map]
  congr 1
  apply List.map_congr_left
  intro i hi
  have hlt : i < size * 8 := by simpa using hi
  have hbit : temp i &&& 1 = if (temp i).getLsbD 0 then 1#32 else 0#32 := BitVec.and_twoPow _ 0
  rw [hbit, h i hlt, Function.comp]
  cases x.getLsbD i <;> rfl

theorem getLsbD_shift_signExtend {v : Nat} (hv : w ≤ v) {i : Nat} (hi : i < w) :
    ((x.signExtend v).sshiftRight i).getLsbD 0 = x.getLsbD i := by
  rw [BitVec.getLsbD_sshiftRight, BitVec.getLsbD_signExtend, Nat.add_zero, if_pos (by omega),
    if_pos hi, decide_eq_false (by omega : ¬ v ≤ 0), decide_eq_true (by omega : i < v)]
  rfl

theorem getLsbD_shift {i : Nat} (hi : i < w) : (x.sshiftRight i).getLsbD 0 = x.getLsbD i := by
  rw [BitVec.getLsbD_sshiftRight, Nat.add_zero, if_pos hi, decide_eq_false (by omega : ¬ w ≤ 0)]
  rfl

/-- Each function prints the two's complement numeral of its argument. -/
theorem binprint_numeral :
    (∀ ii, ∃ ds, binInt ii = binLine ds ∧ TwosNumeral ds ii) ∧
      (∀ ch, ∃ ds, binByte ch = binLine ds ∧ TwosNumeral ds ch) ∧
      (∀ si, ∃ ds, binShort si = binLine ds ∧ TwosNumeral ds si) ∧
      (∀ li, ∃ ds, binLong li = binLine ds ∧ TwosNumeral ds li) := by
  refine ⟨fun ii => ?_, fun ch => ?_, fun si => ?_, fun li => ?_⟩
  · exact ⟨_, binPrint_eq rfl fun i hi => getLsbD_shift hi, twosNumeral_bits ii⟩
  · exact ⟨_, binPrint_eq rfl fun i hi => getLsbD_shift_signExtend (by decide) hi,
      twosNumeral_bits ch⟩
  · exact ⟨_, binPrint_eq rfl fun i hi => getLsbD_shift_signExtend (by decide) hi,
      twosNumeral_bits si⟩
  · refine ⟨_, binPrint_eq rfl fun i hi => ?_, twosNumeral_bits li⟩
    rw [BitVec.getLsbD_setWidth, getLsbD_shift hi]
    rfl

end Lines

end CompOrg.Bits
