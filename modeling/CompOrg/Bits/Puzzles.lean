import CompOrg.Lib.TwosComplement

/-! # The integer puzzles of `bits.c`

Each puzzle is written with the operators its rules allow. Beside it stands its reference
in `tests.c`, which may use comparisons and loops, and the proof that the two agree.
-/

namespace CompOrg.Bits

open TwosComplement

/-- An `int`. The right shift of an `int` keeps the sign. -/
abbrev CInt := BitVec 32

/-- The value of a comparison. -/
def truth (p : Prop) [Decidable p] : CInt := if p then 1#32 else 0#32

def logicalNot (x : CInt) : CInt := truth (x = 0#32)

/-! ## The puzzles -/

def allEvenBits (x : CInt) : CInt :=
  let evenBits : CInt := (0x55#32 <<< 24) ||| (0x55#32 <<< 16) ||| (0x55#32 <<< 8) ||| 0x55#32
  logicalNot ((x &&& evenBits) ^^^ evenBits)

def bang (x : CInt) : CInt :=
  let x := x ||| (~~~x + 1)
  let x := ~~~(x.sshiftRight 31)
  x &&& 1

def bitAnd (x y : CInt) : CInt := ~~~(~~~x ||| ~~~y)

def bitMask (highbit lowbit : CInt) : CInt :=
  let MSB : CInt := ~~~(1#32 <<< 31)
  let LSB : CInt := ~~~1#32
  let lowMask := MSB.sshiftRight' (31 + (~~~lowbit + 1))
  let highMask := LSB <<< highbit
  ~~~(highMask ||| lowMask)

def copyLSB (x : CInt) : CInt :=
  let x := x <<< 31
  x.sshiftRight 31

def evenBits : CInt := (0x55#32 <<< 24) ||| (0x55#32 <<< 16) ||| (0x55#32 <<< 8) ||| 0x55#32

def getByte (x n : CInt) : CInt :=
  let x := x <<< (25#32 + ~~~(n <<< 3))
  let x := x.sshiftRight 24
  x &&& 0x000000ff#32

def leastBitPos (x : CInt) : CInt :=
  let negX := ~~~x + 1
  x &&& negX

def logicalNeg (x : CInt) : CInt :=
  let x := x ||| (~~~x + 1)
  let x := ~~~(x.sshiftRight 31)
  x &&& 1

def minusOne : CInt := ~~~0#32

def tmax : CInt := ~~~(1#32 <<< 31)

def isEqual (x y : CInt) : CInt := logicalNot (x ^^^ y)

def isNegative (x : CInt) : CInt :=
  let x := x.sshiftRight 31
  x &&& 1

def isNonZero (x : CInt) : CInt :=
  let isNegative := x.sshiftRight 31 &&& 0x00000001#32
  let isPositive := ((x + ~~~0#32).sshiftRight 31 &&& 0x00000001#32) ^^^ 1
  isNegative ||| isPositive

def isPositive (x : CInt) : CInt :=
  let originalInverse := logicalNot x
  let x := x &&& (1#32 <<< 31)
  let x := x.sshiftRight 31
  let x := x ||| originalInverse
  logicalNot x

def negate (x : CInt) : CInt := ~~~x + 1

def sign (x : CInt) : CInt :=
  let msb := x.sshiftRight 31
  let msb := msb &&& 0x00000001#32
  logicalNot (logicalNot x) + (~~~msb + 1) + (~~~msb + 1)

def sm2tc (x : CInt) : CInt :=
  let highBit : CInt := 1#32 <<< 31
  let msb := x.sshiftRight 31
  let choiceMask := ~~~msb &&& x
  let conversion := ((x &&& highBit) + (~~~x + 1)) &&& msb
  choiceMask ||| conversion

/-! ## The references -/

/-- The values of `i` in `for (i = 0; i < 32; i += 2)`. -/
def evens : List Nat := List.range' 0 16 2

/-- The values of `i` in `for (i = lo; i <= hi; i++)`. -/
def upTo (lo hi : CInt) : List CInt :=
  (List.range (hi.toInt + 1 - lo.toInt).toNat).map fun k => lo + BitVec.ofNat 32 k

def testAllEvenBits (x : CInt) : CInt :=
  if evens.any fun i => (x &&& (1#32 <<< i)) == 0#32 then 0 else 1

def testBang (x : CInt) : CInt := logicalNot x

def testBitAnd (x y : CInt) : CInt := x &&& y

def testBitMask (highbit lowbit : CInt) : CInt :=
  (upTo lowbit highbit).foldl (fun result i => result ||| (1#32 <<< i)) 0#32

def testCopyLSB (x : CInt) : CInt := if x &&& 0x1#32 ≠ 0 then -1 else 0

def testEvenBits : CInt := evens.foldl (fun result i => result ||| (1#32 <<< i)) 0#32

/-- The cast to `unsigned char` keeps the low byte. -/
def testGetByte (x n : CInt) : CInt :=
  let byte : BitVec 8 :=
    if n = 0#32 then x.setWidth 8
    else if n = 1#32 then (x.sshiftRight 8).setWidth 8
    else if n = 2#32 then (x.sshiftRight 16).setWidth 8
    else (x.sshiftRight 24).setWidth 8
  byte.setWidth 32

/-- `while (!(mask & x)) mask = mask << 1`, for so many rounds. -/
def shiftWhile (x : CInt) : Nat → CInt → Option CInt
  | 0, _ => none
  | rounds + 1, mask =>
      if mask &&& x = 0#32 then shiftWhile x rounds (mask <<< 1) else some mask

/-- The loop is given a round for each bit. -/
def testLeastBitPos (x : CInt) : Option CInt :=
  let mask := 1#32
  if x = 0#32 then some 0 else shiftWhile x 32 mask

def testLogicalNeg (x : CInt) : CInt := logicalNot x

def testMinusOne : CInt := -1

def testTmax : CInt := 0x7FFFFFFF#32

def testIsEqual (x y : CInt) : CInt := truth (x = y)

def testIsNegative (x : CInt) : CInt := truth (x.toInt < 0)

def testIsNonZero (x : CInt) : CInt := truth (x ≠ 0#32)

def testIsPositive (x : CInt) : CInt := truth (0 < x.toInt)

def testNegate (x : CInt) : CInt := -x

def testSign (x : CInt) : CInt := if x = 0#32 then 0 else if x.toInt < 0 then -1 else 1

def testSm2tc (x : CInt) : CInt :=
  let sign := truth (x.toInt < 0)
  let mag := x &&& 0x7FFFFFFF#32
  if sign ≠ 0 then -mag else mag

/-! ## Signs -/

section Agreement

variable (x y : CInt)

theorem shift_sign : x.sshiftRight 31 = if x.msb then BitVec.allOnes 32 else 0#32 :=
  sshiftRight_sign x

theorem toInt_neg_iff : x.toInt < 0 ↔ x.msb = true := by
  rw [BitVec.msb_eq_toInt, decide_eq_true_eq]

theorem toInt_neg_iff_le : x.toInt < 0 ↔ 2 ^ 31 ≤ x.toNat := by
  rw [BitVec.toInt_eq_toNat_cond]
  split <;> omega

/-- The bits above the sign are dropped. -/
theorem sign_and_one : x.sshiftRight 31 &&& 1#32 = truth (x.toInt < 0) := by
  rw [shift_sign, truth]
  simp only [toInt_neg_iff]
  cases x.msb <;> decide

theorem bang_eq : bang x = testBang x := by
  have hmsb := msb_or_neg x
  rw [BitVec.neg_eq_not_add] at hmsb
  rw [bang, testBang, logicalNot, truth, shift_sign, show (1 : CInt) = 1#32 from rfl, hmsb]
  by_cases hzero : x = 0#32
  · rw [hzero]
    decide
  · rw [decide_eq_true hzero, if_neg hzero]
    decide

theorem logicalNeg_eq : logicalNeg x = testLogicalNeg x := bang_eq x

theorem isNegative_eq : isNegative x = testIsNegative x := sign_and_one x

theorem isNonZero_eq : isNonZero x = testIsNonZero x := by
  rw [isNonZero, sign_and_one, sign_and_one, testIsNonZero]
  by_cases hzero : x = 0#32
  · rw [hzero]
    decide
  · by_cases hneg : x.toInt < 0
    · simp only [truth, if_pos hneg, if_pos hzero]
      split <;> decide
    · have hprev : ¬ (x + ~~~0#32).toInt < 0 := by
        rw [toInt_neg_iff_le] at hneg ⊢
        have hpos : x.toNat ≠ 0 := fun h => hzero (BitVec.eq_of_toNat_eq h)
        have hones : (~~~0#32).toNat = 2 ^ 32 - 1 := by decide
        rw [BitVec.toNat_add, hones]
        omega
      simp only [truth, if_neg hneg, if_neg hprev, if_pos hzero]
      decide

theorem isPositive_eq : isPositive x = testIsPositive x := by
  have hmsb : (x &&& (1#32 <<< 31)).msb = x.msb := by
    rw [BitVec.msb_and, show (1#32 <<< 31).msb = true by decide, Bool.and_true]
  rw [isPositive, testIsPositive, shift_sign, hmsb]
  by_cases hzero : x = 0#32
  · rw [hzero]
    decide
  · by_cases hneg : x.msb = true
    · have hle : ¬ 0 < x.toInt := by
        rw [not_lt]
        exact ((toInt_neg_iff x).mpr hneg).le
      simp only [logicalNot, truth, if_neg hzero, hneg, if_neg hle]
      decide
    · have hpos : 0 < x.toInt := by
        have hnonneg := mt (toInt_neg_iff x).mp hneg
        have hne : x.toInt ≠ 0 := fun h => hzero (BitVec.eq_of_toInt_eq h)
        omega
      simp only [logicalNot, truth, if_neg hzero, Bool.not_eq_true _ ▸ hneg, if_pos hpos]
      decide

theorem negate_eq : negate x = testNegate x := (BitVec.neg_eq_not_add x).symm

theorem sign_eq : sign x = testSign x := by
  rw [sign, sign_and_one, testSign]
  by_cases hzero : x = 0#32
  · rw [hzero]
    decide
  · by_cases hneg : x.toInt < 0
    · simp only [logicalNot, truth, if_neg hzero, if_pos hneg]
      decide
    · simp only [logicalNot, truth, if_neg hzero, if_neg hneg]
      decide

/-- The magnitude stands below the sign bit. -/
theorem toNat_magnitude : (x &&& 0x7FFFFFFF#32).toNat = x.toNat % 2 ^ 31 := by
  rw [BitVec.toNat_and, show (0x7FFFFFFF#32).toNat = 2 ^ 31 - 1 from rfl,
    Nat.and_two_pow_sub_one_eq_mod]

theorem and_highBit (h : x.msb = true) : x &&& (1#32 <<< 31) = 0x80000000#32 := by
  have hbit : x.getLsbD 31 = true := by
    rw [← h, BitVec.msb_eq_getLsbD_last]
  rw [show 1#32 <<< 31 = BitVec.twoPow 32 31 from rfl, BitVec.and_twoPow, if_pos hbit]
  rfl

theorem sm2tc_eq : sm2tc x = testSm2tc x := by
  have hmagnitude := toNat_magnitude x
  rw [sm2tc, testSm2tc, shift_sign]
  by_cases hneg : x.toInt < 0
  · have hmsb := (toInt_neg_iff x).mp hneg
    have hle := (toInt_neg_iff_le x).mp hneg
    have htwos : 0x80000000#32 + (~~~x + 1) = -(x &&& 0x7FFFFFFF#32) := by bv_omega
    simp only [truth, if_pos hneg, hmsb, and_highBit x hmsb, htwos, if_true,
      BitVec.not_allOnes, BitVec.zero_and, BitVec.zero_or, BitVec.and_allOnes]
    rfl
  · have hmsb : x.msb = false := Bool.eq_false_iff.mpr (mt (toInt_neg_iff x).mpr hneg)
    have hlt := mt (toInt_neg_iff_le x).mpr hneg
    have hkeep : x &&& 0x7FFFFFFF#32 = x := by
      apply BitVec.eq_of_toNat_eq
      omega
    simp only [truth, if_neg hneg, hmsb, hkeep, Bool.false_eq_true, if_false,
      BitVec.not_zero, BitVec.allOnes_and, BitVec.and_zero, BitVec.or_zero]
    rfl

/-! ## Bits and masks -/

theorem bitAnd_eq : bitAnd x y = testBitAnd x y := by
  rw [bitAnd, testBitAnd, BitVec.not_or, BitVec.not_not, BitVec.not_not]

theorem isEqual_eq : isEqual x y = testIsEqual x y := by
  simp only [isEqual, testIsEqual, logicalNot, truth, BitVec.xor_eq_zero_iff]

theorem minusOne_eq : minusOne = testMinusOne := by decide

theorem tmax_eq : tmax = testTmax := by decide

theorem evenBits_eq : evenBits = testEvenBits := by decide

theorem allEvenBits_eq : allEvenBits x = testAllEvenBits x := by
  have hmask : evenBits = setBits 32 evens := by decide
  have hlt : ∀ i ∈ evens, i < 32 := by decide
  rw [show allEvenBits x = logicalNot ((x &&& evenBits) ^^^ evenBits) from rfl, hmask, logicalNot,
    truth]
  simp only [BitVec.xor_eq_zero_iff, and_setBits_eq_iff hlt]
  rw [testAllEvenBits]
  by_cases hall : ∀ i ∈ evens, x.getLsbD i = true
  · rw [if_pos hall, if_neg]
    · rfl
    · rw [List.any_eq_true]
      rintro ⟨i, hi, hzero⟩
      rw [beq_iff_eq, and_one_shiftLeft_eq_zero_iff (hlt i hi), hall i hi] at hzero
      cases hzero
  · rw [if_neg hall, if_pos]
    · rfl
    · simp only [not_forall, Bool.not_eq_true] at hall
      obtain ⟨i, hi, hclear⟩ := hall
      rw [List.any_eq_true]
      exact ⟨i, hi, beq_iff_eq.mpr ((and_one_shiftLeft_eq_zero_iff (hlt i hi)).mpr hclear)⟩

theorem copyLSB_eq : copyLSB x = testCopyLSB x := by
  have hmsb : (x <<< 31).msb = x.getLsbD 0 := by
    simp [BitVec.msb_eq_getLsbD_last]
  have hbit : x &&& 0x1#32 = if x.getLsbD 0 then 1#32 else 0#32 := BitVec.and_twoPow x 0
  rw [copyLSB, testCopyLSB, shift_sign, hmsb, hbit]
  cases x.getLsbD 0 <;> decide

/-- The byte moves to the top of the word, and from there to the bottom. -/
theorem byte_shifts {s : Nat} (hs : s ≤ 24) :
    ((x <<< (24 - s)).sshiftRight 24) &&& 0x000000ff#32 =
      ((x.sshiftRight s).setWidth 8).setWidth 32 := by
  apply BitVec.eq_of_getLsbD_eq
  intro j hj
  have hmask : (0x000000ff#32).getLsbD j = decide (j < 8) := by
    rw [show 0x000000ff#32 = BitVec.ofNat 32 (2 ^ 8 - 1) from rfl, BitVec.getLsbD_ofNat,
      Nat.testBit_two_pow_sub_one, decide_eq_true hj, Bool.true_and]
  rw [BitVec.getLsbD_and, hmask, BitVec.getLsbD_setWidth, BitVec.getLsbD_setWidth,
    BitVec.getLsbD_sshiftRight, BitVec.getLsbD_sshiftRight, BitVec.getLsbD_shiftLeft]
  by_cases hlow : j < 8
  · have hindex : 24 + j - (24 - s) = s + j := by omega
    simp [hlow, hj, hindex, show 24 + j < 32 by omega, show s + j < 32 by omega,
      show ¬ 24 + j < 24 - s by omega]
  · simp [hlow]

theorem getByte_of_shift {s : Nat} (hs : s ≤ 24) (hn : (25#32 + ~~~(y <<< 3)).toNat = 24 - s) :
    getByte x y = ((x.sshiftRight s).setWidth 8).setWidth 32 := by
  rw [getByte, BitVec.shiftLeft_eq', hn]
  exact byte_shifts x hs

theorem getByte_eq (h0 : 0 ≤ y.toInt) (h3 : y.toInt ≤ 3) : getByte x y = testGetByte x y := by
  have hy : y = 0#32 ∨ y = 1#32 ∨ y = 2#32 ∨ y = 3#32 := by
    rw [BitVec.toInt_eq_toNat_cond] at h0 h3
    split at h0 <;> bv_omega
  rcases hy with rfl | rfl | rfl | rfl
  · have hzero := getByte_of_shift x 0#32 (Nat.zero_le 24) (by decide)
    rw [BitVec.sshiftRight_zero] at hzero
    exact hzero
  · exact getByte_of_shift x 1#32 (by decide : 8 ≤ 24) (by decide)
  · exact getByte_of_shift x 2#32 (by decide : 16 ≤ 24) (by decide)
  · exact getByte_of_shift x 3#32 (le_refl 24) (by decide)

/-! ## Loops -/

theorem shiftWhile_eq {i : Nat} (h : IsLowest x i) {rounds j : Nat} (hj : j ≤ i)
    (hrounds : i < j + rounds) :
    shiftWhile x rounds (1#32 <<< j) = some (1#32 <<< i) := by
  induction rounds generalizing j with
  | zero => omega
  | succ rounds ih =>
      have hlt := h.lt
      rw [shiftWhile, BitVec.and_comm]
      by_cases heq : j = i
      · rw [heq, if_neg]
        rw [and_one_shiftLeft_eq_zero_iff hlt, h.set]
        decide
      · rw [if_pos ((and_one_shiftLeft_eq_zero_iff (by omega)).mpr (h.below j (by omega))),
          ← BitVec.shiftLeft_add]
        exact ih (by omega) (by omega)

theorem leastBitPos_eq : testLeastBitPos x = some (leastBitPos x) := by
  have hneg : leastBitPos x = x &&& -x :=
    congrArg (fun y => x &&& y) (BitVec.neg_eq_not_add x).symm
  rw [hneg, testLeastBitPos]
  by_cases hzero : x = 0#32
  · rw [if_pos hzero, hzero]
    decide
  · obtain ⟨i, h⟩ := exists_isLowest hzero
    rw [if_neg hzero, h.and_neg]
    exact shiftWhile_eq x h (Nat.zero_le i) (by have := h.lt; omega)

theorem toInt_upTo {lo hi : CInt} {k : Nat} (hk : k < (hi.toInt + 1 - lo.toInt).toNat) :
    (lo + BitVec.ofNat 32 k).toInt = lo.toInt + k := by
  have hlt := BitVec.two_mul_toInt_lt (x := hi)
  exact toInt_add_ofNat (by omega)

theorem mem_upTo {lo hi i : CInt} :
    i ∈ upTo lo hi ↔ lo.toInt ≤ i.toInt ∧ i.toInt ≤ hi.toInt := by
  rw [upTo, List.mem_map]
  constructor
  · rintro ⟨k, hk, rfl⟩
    rw [List.mem_range] at hk
    rw [toInt_upTo hk]
    omega
  · intro ⟨hlo, hhi⟩
    have hk : (i.toInt - lo.toInt).toNat < (hi.toInt + 1 - lo.toInt).toNat := by omega
    refine ⟨(i.toInt - lo.toInt).toNat, List.mem_range.mpr hk, BitVec.eq_of_toInt_eq ?_⟩
    rw [toInt_upTo hk]
    omega

theorem testBitMask_eq : testBitMask x y = setBits 32 ((upTo y x).map BitVec.toNat) := by
  rw [testBitMask, setBits, List.foldl_map]
  rfl

theorem toNat_of_toInt {n : Nat} (h0 : 0 ≤ x.toInt) (hn : x.toInt ≤ n) :
    x.toInt = x.toNat ∧ x.toNat ≤ n := by
  rw [BitVec.toInt_eq_toNat_cond] at h0 hn ⊢
  split at h0 <;> omega

theorem mem_positions (hhigh : x.toInt ≤ 31) (hlow : 0 ≤ y.toInt) {j : Nat} :
    j ∈ (upTo y x).map BitVec.toNat ↔ y.toInt ≤ j ∧ j ≤ x.toInt := by
  rw [List.mem_map]
  constructor
  · rintro ⟨i, hi, rfl⟩
    rw [mem_upTo] at hi
    obtain ⟨htoNat, -⟩ := toNat_of_toInt i (hlow.trans hi.1) (hi.2.trans hhigh)
    omega
  · intro hj
    have hvalue : (BitVec.ofNat 32 j).toInt = j := by
      rw [BitVec.toInt_ofNat']
      exact Int.bmod_eq_of_le_mul_two (by omega) (by omega)
    refine ⟨BitVec.ofNat 32 j, mem_upTo.mpr (by omega), ?_⟩
    rw [BitVec.toNat_ofNat]
    omega

/-- The ones below `lowbit`. -/
theorem getLsbD_lowMask {j : Nat} (hj : j < 32) (hy : y.toNat ≤ 31) :
    ((~~~(1#32 <<< 31)).sshiftRight' (31 + (~~~y + 1))).getLsbD j = decide (j < y.toNat) := by
  have hshift : (31 + (~~~y + 1) : CInt).toNat = 31 - y.toNat := by bv_omega
  have hmsb : (~~~(1#32 <<< 31)).msb = false := by decide
  rw [BitVec.sshiftRight_eq', hshift, BitVec.getLsbD_sshiftRight, hmsb, BitVec.getLsbD_not,
    show 1#32 <<< 31 = BitVec.twoPow 32 31 from rfl, BitVec.getLsbD_twoPow,
    decide_eq_false (by omega : ¬ 32 ≤ j), decide_eq_true (by decide : 31 < 32)]
  by_cases hlt : j < y.toNat
  · rw [if_pos (by omega), decide_eq_true (by omega : 31 - y.toNat + j < 32),
      decide_eq_false (by omega : ¬ 31 = 31 - y.toNat + j), decide_eq_true hlt]
    rfl
  · rw [decide_eq_false hlt]
    split
    · rw [decide_eq_true (by omega : 31 = 31 - y.toNat + j), Bool.true_and, Bool.not_true,
        Bool.and_false, Bool.and_false]
    · rfl

/-- The ones above `highbit`. -/
theorem getLsbD_highMask {j : Nat} (hj : j < 32) :
    ((~~~1#32) <<< x).getLsbD j = decide (x.toNat < j) := by
  rw [BitVec.shiftLeft_eq', BitVec.getLsbD_shiftLeft, BitVec.getLsbD_not, BitVec.getLsbD_one,
    decide_eq_true hj, Bool.true_and]
  by_cases hlt : x.toNat < j
  · simp [hlt, Nat.not_lt.mpr hlt.le, show j - x.toNat < 32 by omega,
      show j - x.toNat ≠ 0 by omega]
  · rw [decide_eq_false hlt]
    by_cases heq : j = x.toNat
    · simp [heq]
    · simp [show j < x.toNat by omega]

theorem bitMask_eq (hhigh : 0 ≤ x.toInt ∧ x.toInt ≤ 31) (hlow : 0 ≤ y.toInt ∧ y.toInt ≤ 31) :
    bitMask x y = testBitMask x y := by
  obtain ⟨hx, hx31⟩ := toNat_of_toInt x hhigh.1 hhigh.2
  obtain ⟨hy, hy31⟩ := toNat_of_toInt y hlow.1 hlow.2
  rw [testBitMask_eq]
  apply BitVec.eq_of_getLsbD_eq
  intro j hj
  have hmem := mem_positions x y hhigh.2 hlow.1 (j := j)
  rw [bitMask, BitVec.getLsbD_not, BitVec.getLsbD_or, getLsbD_lowMask y hj hy31,
    getLsbD_highMask x hj, getLsbD_setBits hj, decide_eq_true hj, Bool.true_and,
    ← Bool.decide_or, ← decide_not, decide_eq_decide, hmem]
  omega

end Agreement

end CompOrg.Bits
