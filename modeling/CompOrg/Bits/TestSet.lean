import CompOrg.Bits.FloatPuzzles
import Mathlib.Data.Fin.VecNotation

/-! # The puzzles under test

The table of `decl.c` names each puzzle, its reference and the ranges of its arguments. A
floating point puzzle is marked by the range from 1 to 1, and takes every pattern.
-/

namespace CompOrg.Bits

def TMin : CInt := 0x80000000#32

def TMax : CInt := 0x7fffffff#32

def TEST_RANGE : Nat := 500000

/-- The size of the array that holds the values for an argument. -/
def MAX_TEST_VALS : Nat := 13 * TEST_RANGE

/-- A `test_rec`. A reference that loops for ever has no value. -/
structure TestRec where
  name : String
  args : Nat
  solution : (Fin args → CInt) → CInt
  test : (Fin args → CInt) → Option CInt
  rating : Int
  argRanges : Fin 3 → CInt × CInt
  args_le : args ≤ 3 := by decide

namespace TestRec

def range (t : TestRec) (i : Fin t.args) : CInt × CInt := t.argRanges (i.castLE t.args_le)

/-- The range that marks a pattern. -/
def patterns : CInt × CInt := (1, 1)

/-- The value is one the puzzle may be called with. -/
def Admits (t : TestRec) (i : Fin t.args) (v : CInt) : Prop :=
  t.range i = patterns ∨ (t.range i).1.toInt ≤ v.toInt ∧ v.toInt ≤ (t.range i).2.toInt

/-- The range is small enough for all its values to be tried. -/
def Exhaustive (t : TestRec) (i : Fin t.args) : Prop :=
  (t.range i).2.toInt - MAX_TEST_VALS ≤ (t.range i).1.toInt

def Agrees (t : TestRec) (a : Fin t.args → CInt) : Prop := t.test a = some (t.solution a)

instance (t : TestRec) (a : Fin t.args → CInt) : Decidable (t.Agrees a) :=
  inferInstanceAs (Decidable (t.test a = some (t.solution a)))

end TestRec

open TestRec

def anyInt : Fin 3 → CInt × CInt := ![(TMin, TMax), (TMin, TMax), (TMin, TMax)]

def anyPattern : Fin 3 → CInt × CInt := ![patterns, patterns, patterns]

/-- A pattern is passed as an `int`. -/
def asInt (f : UInt32 → UInt32) (x : CInt) : CInt := (f (UInt32.ofBitVec x)).toBitVec

def floatTwiceRec : TestRec where
  name := "float_twice"
  args := 1
  solution a := asInt floatTwice (a 0)
  test a := some (asInt testFloatTwice (a 0))
  rating := 4
  argRanges := anyPattern

def testSet : List TestRec := [
  { name := "allEvenBits", args := 1, solution := fun a => allEvenBits (a 0),
    test := fun a => some (testAllEvenBits (a 0)), rating := 2, argRanges := anyInt },
  { name := "bang", args := 1, solution := fun a => bang (a 0),
    test := fun a => some (testBang (a 0)), rating := 4, argRanges := anyInt },
  { name := "bitAnd", args := 2, solution := fun a => bitAnd (a 0) (a 1),
    test := fun a => some (testBitAnd (a 0) (a 1)), rating := 1, argRanges := anyInt },
  { name := "bitMask", args := 2, solution := fun a => bitMask (a 0) (a 1),
    test := fun a => some (testBitMask (a 0) (a 1)), rating := 3,
    argRanges := ![(0, 31), (0, 31), (TMin, TMax)] },
  { name := "copyLSB", args := 1, solution := fun a => copyLSB (a 0),
    test := fun a => some (testCopyLSB (a 0)), rating := 2, argRanges := anyInt },
  { name := "evenBits", args := 0, solution := fun _ => evenBits,
    test := fun _ => some testEvenBits, rating := 1, argRanges := anyInt },
  { name := "getByte", args := 2, solution := fun a => getByte (a 0) (a 1),
    test := fun a => some (testGetByte (a 0) (a 1)), rating := 2,
    argRanges := ![(TMin, TMax), (0, 3), (TMin, TMax)] },
  { name := "leastBitPos", args := 1, solution := fun a => leastBitPos (a 0),
    test := fun a => testLeastBitPos (a 0), rating := 2, argRanges := anyInt },
  { name := "logicalNeg", args := 1, solution := fun a => logicalNeg (a 0),
    test := fun a => some (testLogicalNeg (a 0)), rating := 4, argRanges := anyInt },
  { name := "minusOne", args := 0, solution := fun _ => minusOne,
    test := fun _ => some testMinusOne, rating := 1, argRanges := anyInt },
  { name := "tmax", args := 0, solution := fun _ => tmax,
    test := fun _ => some testTmax, rating := 1, argRanges := anyInt },
  { name := "isEqual", args := 2, solution := fun a => isEqual (a 0) (a 1),
    test := fun a => some (testIsEqual (a 0) (a 1)), rating := 2, argRanges := anyInt },
  { name := "isNegative", args := 1, solution := fun a => isNegative (a 0),
    test := fun a => some (testIsNegative (a 0)), rating := 2, argRanges := anyInt },
  { name := "isNonZero", args := 1, solution := fun a => isNonZero (a 0),
    test := fun a => some (testIsNonZero (a 0)), rating := 4, argRanges := anyInt },
  { name := "isPositive", args := 1, solution := fun a => isPositive (a 0),
    test := fun a => some (testIsPositive (a 0)), rating := 3, argRanges := anyInt },
  { name := "negate", args := 1, solution := fun a => negate (a 0),
    test := fun a => some (testNegate (a 0)), rating := 2, argRanges := anyInt },
  { name := "sign", args := 1, solution := fun a => sign (a 0),
    test := fun a => some (testSign (a 0)), rating := 2,
    argRanges := ![(-TMax, TMax), (TMin, TMax), (TMin, TMax)] },
  { name := "sm2tc", args := 1, solution := fun a => sm2tc (a 0),
    test := fun a => some (testSm2tc (a 0)), rating := 4, argRanges := anyInt },
  { name := "float_abs", args := 1, solution := fun a => asInt floatAbs (a 0),
    test := fun a => some (asInt testFloatAbs (a 0)), rating := 2, argRanges := anyPattern },
  floatTwiceRec]

/-- The pattern that the integer stands for is one of those that are not doubled. -/
def Exposes (v : CInt) : Prop := GreatestWithFraction (UInt32.ofBitVec v)

instance : DecidablePred Exposes := fun v =>
  inferInstanceAs (Decidable (GreatestWithFraction (UInt32.ofBitVec v)))

theorem asInt_injective {f g : UInt32 → UInt32} {x : CInt} :
    asInt f x = asInt g x ↔ f (UInt32.ofBitVec x) = g (UInt32.ofBitVec x) := by
  rw [asInt, asInt, UInt32.toBitVec_inj]

theorem floatTwiceRec_agrees_iff (a : Fin floatTwiceRec.args → CInt) :
    floatTwiceRec.Agrees a ↔ ¬ ∃ i, Exposes (a i) := by
  have hone : (∃ i : Fin 1, Exposes (a i)) ↔ Exposes (a (0 : Fin 1)) := Fin.exists_fin_one
  have hfirst : floatTwiceRec.Agrees a ↔ ¬ Exposes (a (0 : Fin 1)) := by
    rw [Exposes, ← floatTwice_agrees_iff, ← asInt_injective (f := floatTwice), eq_comm]
    exact Option.some_inj
  exact hfirst.trans (not_congr hone.symm)

theorem floatTwiceRec_range (i : Fin floatTwiceRec.args) : floatTwiceRec.range i = patterns := by
  have hrange : ∀ i : Fin 3, anyPattern i = patterns := by decide
  exact hrange (i.castLE floatTwiceRec.args_le)

theorem range_of_exhaustive {t : TestRec} {i : Fin t.args} {v : CInt}
    (h : t.Exhaustive i → t.Admits i v)
    (hsmall : (t.range i).2.toInt - MAX_TEST_VALS ≤ (t.range i).1.toInt)
    (hne : t.range i ≠ patterns) :
    (t.range i).1.toInt ≤ v.toInt ∧ v.toInt ≤ (t.range i).2.toInt := (h hsmall).resolve_left hne

/-- Every other puzzle agrees with its reference, and where the range is not small even
outside of it. -/
theorem agrees_of_mem {t : TestRec} (ht : t ∈ testSet) (hname : t.name ≠ "float_twice")
    {a : Fin t.args → CInt} (ha : ∀ i, t.Exhaustive i → t.Admits i (a i)) : t.Agrees a := by
  simp only [testSet, List.mem_cons, List.not_mem_nil, or_false] at ht
  rcases ht with rfl | rfl | rfl | rfl | rfl | rfl | rfl | rfl | rfl | rfl | rfl | rfl | rfl |
    rfl | rfl | rfl | rfl | rfl | rfl | rfl
  · exact congrArg some (allEvenBits_eq (a 0)).symm
  · exact congrArg some (bang_eq (a 0)).symm
  · exact congrArg some (bitAnd_eq (a 0) (a 1)).symm
  · exact congrArg some (bitMask_eq (a 0) (a 1)
      (range_of_exhaustive (ha 0) (by decide) (by decide))
      (range_of_exhaustive (ha 1) (by decide) (by decide))).symm
  · exact congrArg some (copyLSB_eq (a 0)).symm
  · exact congrArg some evenBits_eq.symm
  · obtain ⟨h0, h3⟩ := range_of_exhaustive (ha 1) (by decide) (by decide)
    exact congrArg some (getByte_eq (a 0) (a 1) h0 h3).symm
  · exact leastBitPos_eq (a 0)
  · exact congrArg some (logicalNeg_eq (a 0)).symm
  · exact congrArg some minusOne_eq.symm
  · exact congrArg some tmax_eq.symm
  · exact congrArg some (isEqual_eq (a 0) (a 1)).symm
  · exact congrArg some (isNegative_eq (a 0)).symm
  · exact congrArg some (isNonZero_eq (a 0)).symm
  · exact congrArg some (isPositive_eq (a 0)).symm
  · exact congrArg some (negate_eq (a 0)).symm
  · exact congrArg some (sign_eq (a 0)).symm
  · exact congrArg some (sm2tc_eq (a 0)).symm
  · exact congrArg some (asInt_injective.mpr (floatAbs_eq _)).symm
  · exact (hname rfl).elim

theorem eq_floatTwiceRec {t : TestRec} (ht : t ∈ testSet) (hname : t.name = "float_twice") :
    t = floatTwiceRec := by
  simp only [testSet, List.mem_cons, List.not_mem_nil, or_false] at ht
  rcases ht with rfl | rfl | rfl | rfl | rfl | rfl | rfl | rfl | rfl | rfl | rfl | rfl | rfl |
    rfl | rfl | rfl | rfl | rfl | rfl | rfl
  all_goals first | rfl | exact absurd hname (by decide)

/-- A puzzle differs from its reference at the patterns that `float_twice` does not double,
and nowhere else. -/
theorem testSet_agrees_iff {t : TestRec} (ht : t ∈ testSet) {a : Fin t.args → CInt}
    (ha : ∀ i, t.Admits i (a i)) :
    t.Agrees a ↔ ¬ (t.name = "float_twice" ∧ ∃ i, Exposes (a i)) := by
  by_cases hname : t.name = "float_twice"
  · obtain rfl := eq_floatTwiceRec ht hname
    exact (floatTwiceRec_agrees_iff a).trans
      (not_congr ⟨fun hsome => ⟨hname, hsome⟩, fun hsome => hsome.2⟩)
  · exact iff_of_true (agrees_of_mem ht hname fun i _ => ha i) fun h => hname h.1

/-- The greatest finite number is doubled to what is no number. -/
theorem greatest_disagrees : ¬ floatTwiceRec.Agrees ![0x7f7fffff#32] := by
  have hmem : floatTwiceRec ∈ testSet := by simp [testSet]
  have hbits : Exposes 0x7f7fffff#32 := by decide
  have hiff := testSet_agrees_iff hmem (a := ![0x7f7fffff#32]) fun i =>
    Or.inl (floatTwiceRec_range i)
  exact fun h => hiff.mp h ⟨rfl, (0 : Fin 1), hbits⟩

end CompOrg.Bits
