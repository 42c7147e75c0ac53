import CompOrg.Bits.FloatTwice
import CompOrg.Bits.Puzzles

/-! # The floating point puzzles and their references

A reference in `tests.c` computes with the `float` that has the given bits. The puzzles
`float_abs` and `float_twice` take and return `unsigned` patterns.
-/

namespace CompOrg.Bits

open FloatFormat

def floatAbs (uf : UInt32) : UInt32 :=
  let t := uf &&& 0x7fffffff
  if t > 0x7f800000 then uf else t

/-! ## The references -/

/-- The `float` of a pattern is its fields. -/
def u2f (u : UInt32) : Pattern 8 23 := pattern u

def f2u (f : Pattern 8 23) : UInt32 :=
  UInt32.ofNat (signUnits f.negative + (f.exponent * 2 ^ 23 + f.fraction))

def testFloatAbs (uf : UInt32) : UInt32 :=
  let f := u2f uf
  let unf := f2u f.neg
  if f.isNaN then uf else if uf.toBitVec.toInt < 0 then unf else uf

def testFloatTwice (uf : UInt32) : UInt32 :=
  let f := u2f uf
  let tf := f.twice (by decide)
  if f.isNaN then uf else f2u tf

section Agreement

variable {uf : UInt32}

theorem f2u_toNat (f : Pattern 8 23) :
    (f2u f).toNat = signUnits f.negative + (f.exponent * 2 ^ 23 + f.fraction) := by
  have he := f.exponent_lt
  have hf := f.fraction_lt
  have hsign : signUnits f.negative ≤ 2 ^ 31 := by
    unfold signUnits
    split <;> omega
  rw [f2u, UInt32.toNat_ofNat']
  omega

theorem pattern_f2u (f : Pattern 8 23) : pattern (f2u f) = f := by
  have he := f.exponent_lt
  have hf := f.fraction_lt
  obtain ⟨hsign, hexponent, hfraction⟩ := pattern_of_toNat (by omega) (f2u_toNat f)
  exact Pattern.ext hsign (by omega) (by omega)

theorem toInt_neg_iff_negative : uf.toBitVec.toInt < 0 ↔ (pattern uf).negative = true := by
  rw [toInt_neg_iff_le]
  exact decide_eq_true_iff.symm

theorem floatAbs_eq (uf : UInt32) : floatAbs uf = testFloatAbs uf := by
  have hlt := uf.toNat_lt
  have hbits := toNat_eq uf
  have he := (pattern uf).exponent_lt
  have hf := (pattern uf).fraction_lt
  have ht : (uf &&& 0x7fffffff).toNat = uf.toNat % 2 ^ 31 := by
    rw [UInt32.toNat_and, show (0x7fffffff : UInt32).toNat = 2 ^ 31 - 1 from rfl,
      Nat.and_two_pow_sub_one_eq_mod]
  have hlow : uf.toNat % 2 ^ 31 = (pattern uf).exponent * 2 ^ 23 + (pattern uf).fraction := by
    rw [hbits, signUnits]
    split <;> omega
  have hnan : uf &&& 0x7fffffff > 0x7f800000 ↔ (pattern uf).isNaN = true := by
    rw [gt_iff_lt, UInt32.lt_iff_toNat_lt, ht, hlow, Pattern.isNaN, Bool.and_eq_true, beq_iff_eq,
      bne_iff_ne]
    have hinf : (0x7f800000 : UInt32).toNat = 255 * 2 ^ 23 := rfl
    omega
  rw [floatAbs, testFloatAbs, u2f]
  simp only [hnan]
  by_cases h : (pattern uf).isNaN = true
  · rw [if_pos h, if_pos h]
  · rw [if_neg h, if_neg h]
    apply UInt32.toNat_inj.mp
    simp only [toInt_neg_iff_negative]
    rw [ht, hlow]
    split
    next hneg =>
      rw [f2u_toNat, Pattern.neg, hneg]
      exact (Nat.zero_add _).symm
    next hpos =>
      rw [hbits, Bool.eq_false_iff.mpr hpos]
      exact (Nat.zero_add _).symm

theorem pattern_testFloatTwice (uf : UInt32) :
    pattern (testFloatTwice uf) = (pattern uf).twice (by decide) := by
  rw [testFloatTwice]
  by_cases h : (u2f uf).isNaN = true
  · have hspecial : (pattern uf).exponent = 2 ^ 8 - 1 := by
      rw [Pattern.isNaN, Bool.and_eq_true, beq_iff_eq] at h
      exact h.1
    rw [if_pos h, Pattern.twice, if_pos hspecial]
  · rw [if_neg h]
    exact pattern_f2u _

theorem floatTwice_eq_iff : floatTwice uf = testFloatTwice uf ↔ Doubles uf := by
  have htwice := isTwice_twice (by decide) (pattern uf)
  rw [← pattern_testFloatTwice] at htwice
  constructor
  · intro h
    rw [Doubles, h]
    exact htwice
  · exact fun h => (h.eq htwice).symm

/-- The patterns that the harness may not meet. -/
def GreatestWithFraction (uf : UInt32) : Prop :=
  (pattern uf).exponent = 254 ∧ (pattern uf).fraction ≠ 0

instance : DecidablePred GreatestWithFraction := fun uf =>
  inferInstanceAs (Decidable ((pattern uf).exponent = 254 ∧ (pattern uf).fraction ≠ 0))

theorem floatTwice_agrees_iff : floatTwice uf = testFloatTwice uf ↔ ¬ GreatestWithFraction uf := by
  have hlt := (pattern uf).exponent_lt
  rw [floatTwice_eq_iff, GreatestWithFraction]
  by_cases hgreatest : (pattern uf).exponent = 254
  · rw [doubles_greatest_iff hgreatest]
    simp [hgreatest]
  · have hdoubles : Doubles uf := by
      by_cases hspecial : (pattern uf).exponent = 255
      · rw [Doubles, floatTwice_special hspecial]
        exact isTwice_self fun hfinite => hfinite hspecial
      · by_cases hzero : (pattern uf).exponent = 0
        · exact doubles_denormal hzero
        · exact doubles_normal hzero (by omega)
    exact iff_of_true hdoubles fun h => hgreatest h.1

end Agreement

end CompOrg.Bits
