import CompOrg.Lib.FloatFormat
import Mathlib.Data.Nat.Bitwise

/-! # `float_twice` of `bits.c`

The exponent is incremented, and a denormal number is shifted; a bit that is carried out of
the fraction is the lowest bit of the exponent. The exponent that follows the greatest one
is that of infinity, but the fraction is kept.
-/

namespace CompOrg.Bits

open FloatFormat

def floatTwice (uf : UInt32) : UInt32 :=
  let exponent := (uf >>> 23) &&& 0xff
  let sign := uf &&& 0x80000000
  let fraction := uf &&& 0x007fffff
  if exponent == 255 || (exponent == 0 && fraction == 0) then uf
  else
    let (exponent, fraction) :=
      if exponent != 0 then (exponent + 1, fraction)
      else if fraction == 0x7fffff then (exponent + 1, fraction - 1)
      else (exponent, fraction <<< 1)
    sign ||| (exponent <<< 23) ||| fraction

/-- The fields of a 32-bit pattern. -/
def pattern (uf : UInt32) : Pattern 8 23 where
  negative := decide (2 ^ 31 ≤ uf.toNat)
  exponent := uf.toNat / 2 ^ 23 % 2 ^ 8
  fraction := uf.toNat % 2 ^ 23
  exponent_lt := Nat.mod_lt _ (by decide)
  fraction_lt := Nat.mod_lt _ (by decide)

/-! ## Taking a pattern apart and joining it -/

def exponentBits (uf : UInt32) : UInt32 := (uf >>> 23) &&& 0xff

def signBits (uf : UInt32) : UInt32 := uf &&& 0x80000000

def fractionBits (uf : UInt32) : UInt32 := uf &&& 0x007fffff

/-- The sign bit in its place. -/
def signUnits (negative : Bool) : Nat := if negative then 2 ^ 31 else 0

section Fields

variable {uf : UInt32}

theorem exponentBits_toNat (uf : UInt32) : (exponentBits uf).toNat = (pattern uf).exponent := by
  have hmask : (0xff : UInt32).toNat = 2 ^ 8 - 1 := rfl
  have hshift : (23 : UInt32).toNat % 32 = 23 := rfl
  rw [exponentBits, UInt32.toNat_and, hmask, Nat.and_two_pow_sub_one_eq_mod,
    UInt32.toNat_shiftRight, hshift, Nat.shiftRight_eq_div_pow]
  rfl

theorem fractionBits_toNat (uf : UInt32) : (fractionBits uf).toNat = (pattern uf).fraction := by
  have hmask : (0x007fffff : UInt32).toNat = 2 ^ 23 - 1 := rfl
  rw [fractionBits, UInt32.toNat_and, hmask, Nat.and_two_pow_sub_one_eq_mod]
  rfl

theorem signBits_toNat (uf : UInt32) :
    (signBits uf).toNat = signUnits (pattern uf).negative := by
  have hmask : (0x80000000 : UInt32).toNat = 2 ^ 31 := rfl
  have hlt := uf.toNat_lt
  rw [signBits, UInt32.toNat_and, hmask, Nat.and_two_pow, Nat.testBit_eq_decide_div_mod_eq,
    signUnits, pattern]
  by_cases hsign : 2 ^ 31 ≤ uf.toNat
  · have hdiv : uf.toNat / 2 ^ 31 % 2 = 1 := by omega
    rw [hdiv, decide_eq_true hsign, decide_eq_true rfl, Bool.toNat_true, Nat.one_mul, if_pos rfl]
  · have hdiv : uf.toNat / 2 ^ 31 % 2 = 0 := by omega
    rw [hdiv, decide_eq_false hsign, decide_eq_false (by decide), Bool.toNat_false,
      Nat.zero_mul, if_neg Bool.false_ne_true]

theorem toNat_eq (uf : UInt32) : uf.toNat = signUnits (pattern uf).negative +
    ((pattern uf).exponent * 2 ^ 23 + (pattern uf).fraction) := by
  have hlt := uf.toNat_lt
  by_cases hsign : 2 ^ 31 ≤ uf.toNat
  · simp only [signUnits, pattern, hsign, decide_true, if_true]
    omega
  · simp only [signUnits, pattern, hsign, decide_false, Bool.false_eq_true, if_false]
    omega

theorem pattern_injective {vf : UInt32} (h : pattern uf = pattern vf) : uf = vf := by
  apply UInt32.toNat_inj.mp
  rw [toNat_eq, toNat_eq vf, h]

theorem or_sign {sign low : UInt32} {negative : Bool} (hsign : sign.toNat = signUnits negative)
    (hlow : low.toNat < 2 ^ 31) : (sign ||| low).toNat = signUnits negative + low.toNat := by
  have hshift : signUnits negative = negative.toNat <<< 31 := by
    rw [signUnits, Nat.shiftLeft_eq]
    cases negative
    · rw [if_neg (by decide), Bool.toNat_false, Nat.zero_mul]
    · rw [if_pos rfl, Bool.toNat_true, Nat.one_mul]
  rw [UInt32.toNat_or, hsign, hshift, ← Nat.shiftLeft_add_eq_or_of_lt hlow]

theorem or_fraction {exponent fraction : UInt32} (hexponent : exponent.toNat < 2 ^ 8)
    (hfraction : fraction.toNat < 2 ^ 23) :
    ((exponent <<< 23) ||| fraction).toNat = exponent.toNat * 2 ^ 23 + fraction.toNat := by
  have hshift : (23 : UInt32).toNat % 32 = 23 := rfl
  have hword : exponent.toNat <<< 23 < 2 ^ 32 := by
    rw [Nat.shiftLeft_eq]
    omega
  rw [UInt32.toNat_or, UInt32.toNat_shiftLeft, hshift, Nat.mod_eq_of_lt hword,
    ← Nat.shiftLeft_add_eq_or_of_lt hfraction, Nat.shiftLeft_eq]

/-- The fields of a pattern that is joined from a sign and the bits below it. -/
theorem pattern_of_toNat {negative : Bool} {low : Nat} (hlow : low < 2 ^ 31)
    (h : uf.toNat = signUnits negative + low) :
    (pattern uf).negative = negative ∧ (pattern uf).exponent = low / 2 ^ 23 ∧
      (pattern uf).fraction = low % 2 ^ 23 := by
  cases negative with
  | true =>
      simp only [signUnits, if_true] at h
      simp only [pattern, h, decide_eq_true_eq]
      omega
  | false =>
      simp only [signUnits, Bool.false_eq_true, if_false] at h
      simp only [pattern, h, decide_eq_false_iff_not]
      omega

/-! ## The cases of the code -/

theorem floatTwice_special (h : (pattern uf).exponent = 255) : floatTwice uf = uf := by
  have hexponent : (uf >>> 23) &&& 0xff = 255 :=
    UInt32.toNat_inj.mp ((exponentBits_toNat uf).trans h)
  simp only [floatTwice, hexponent]
  rfl

theorem floatTwice_normal (hne : (pattern uf).exponent ≠ 0) (hlt : (pattern uf).exponent < 255) :
    (pattern (floatTwice uf)).negative = (pattern uf).negative ∧
      (pattern (floatTwice uf)).exponent = (pattern uf).exponent + 1 ∧
      (pattern (floatTwice uf)).fraction = (pattern uf).fraction := by
  have hfraction := (pattern uf).fraction_lt
  have hexponent := exponentBits_toNat uf
  have hzero : exponentBits uf ≠ 0 := by
    intro h
    rw [h] at hexponent
    exact hne hexponent.symm
  have hgreatest : exponentBits uf ≠ 255 := by
    intro h
    rw [h] at hexponent
    exact hlt.ne hexponent.symm
  have hstep : floatTwice uf =
      signBits uf ||| ((exponentBits uf + 1) <<< 23 ||| fractionBits uf) := by
    unfold exponentBits at hzero hgreatest
    simp [floatTwice, exponentBits, signBits, fractionBits, hzero, hgreatest, UInt32.or_assoc]
  have hsucc : (exponentBits uf + 1).toNat = (pattern uf).exponent + 1 := by
    rw [UInt32.toNat_add, hexponent, UInt32.toNat_one]
    omega
  have hlow : ((exponentBits uf + 1) <<< 23 ||| fractionBits uf).toNat =
      ((pattern uf).exponent + 1) * 2 ^ 23 + (pattern uf).fraction := by
    rw [or_fraction (by rw [hsucc]; omega) (by rwa [fractionBits_toNat]), hsucc,
      fractionBits_toNat]
  have hjoined : (floatTwice uf).toNat = signUnits (pattern uf).negative +
      (((pattern uf).exponent + 1) * 2 ^ 23 + (pattern uf).fraction) := by
    rw [hstep, or_sign (signBits_toNat uf) (by rw [hlow]; omega), hlow]
  obtain ⟨hsign, he, hf⟩ := pattern_of_toNat (by omega) hjoined
  exact ⟨hsign, by omega, by omega⟩

theorem floatTwice_denormal (h : (pattern uf).exponent = 0) :
    (floatTwice uf).toNat = signUnits (pattern uf).negative + 2 * (pattern uf).fraction := by
  have hlt := (pattern uf).fraction_lt
  have hfraction := fractionBits_toNat uf
  have hexponent : (uf >>> 23) &&& 0xff = 0 :=
    UInt32.toNat_inj.mp ((exponentBits_toNat uf).trans h)
  by_cases hzero : fractionBits uf = 0
  · have hsame : floatTwice uf = uf := by
      unfold fractionBits at hzero
      simp [floatTwice, hexponent, hzero]
    rw [hzero] at hfraction
    rw [hsame, toNat_eq, h, ← hfraction]
    rfl
  · by_cases hfull : fractionBits uf = 0x7fffff
    · have hstep : floatTwice uf = signBits uf ||| 0xfffffe := by
        unfold fractionBits at hfull
        have hcarry : (1 : UInt32) <<< 23 ||| 8388606 = 16777214 := by decide
        simp [floatTwice, hexponent, hfull, signBits, UInt32.or_assoc, hcarry]
      rw [hfull] at hfraction
      rw [hstep, or_sign (signBits_toNat uf) (by decide), ← hfraction]
      rfl
    · have hstep : floatTwice uf = signBits uf ||| (fractionBits uf <<< 1) := by
        unfold fractionBits at hzero hfull
        simp [floatTwice, hexponent, hzero, hfull, signBits, fractionBits]
      have hshift : (fractionBits uf <<< 1).toNat = 2 * (pattern uf).fraction := by
        have hone : (1 : UInt32).toNat % 32 = 1 := rfl
        rw [UInt32.toNat_shiftLeft, hone, hfraction, Nat.shiftLeft_eq]
        omega
      rw [hstep, or_sign (signBits_toNat uf) (by rw [hshift]; omega), hshift]

/-! ## Doubling -/

/-- The result is the pattern of twice the value. -/
def Doubles (uf : UInt32) : Prop := IsTwice (pattern uf) (pattern (floatTwice uf))

theorem isFinite_of_lt (h : (pattern uf).exponent < 255) : (pattern uf).IsFinite := h.ne

theorem doubles_normal (hne : (pattern uf).exponent ≠ 0) (hlt : (pattern uf).exponent < 254) :
    Doubles uf := by
  obtain ⟨hsign, hexponent, hfraction⟩ := floatTwice_normal hne (by omega)
  apply isTwice_of_units (by decide) _ _ hsign
  · rw [units_of_normal hne, units_of_normal (by omega), hexponent, hfraction, Nat.add_sub_cancel]
    obtain ⟨e, he⟩ := Nat.exists_eq_add_one_of_ne_zero hne
    rw [he, Nat.add_sub_cancel, Nat.pow_succ]
    ring
  · exact isFinite_of_lt (by omega)
  · exact isFinite_of_lt (by omega)

theorem doubles_denormal (h : (pattern uf).exponent = 0) : Doubles uf := by
  have hlt := (pattern uf).fraction_lt
  obtain ⟨hsign, hexponent, hfraction⟩ := pattern_of_toNat (by omega) (floatTwice_denormal h)
  apply isTwice_of_units (by decide) _ _ hsign
  · rw [units_of_denormal h]
    by_cases hzero : (pattern (floatTwice uf)).exponent = 0
    · rw [units_of_denormal hzero]
      omega
    · have hone : (pattern (floatTwice uf)).exponent = 1 := by omega
      rw [units_of_normal hzero, hone, hfraction]
      omega
  · exact isFinite_of_lt (by omega)
  · exact isFinite_of_lt (by omega)

/-- At the greatest exponent the result has the exponent of infinity. -/
theorem doubles_greatest_iff (h : (pattern uf).exponent = 254) :
    Doubles uf ↔ (pattern uf).fraction = 0 := by
  have hne : (pattern uf).exponent ≠ 0 := by omega
  obtain ⟨hsign, hexponent, hfraction⟩ := floatTwice_normal hne (by omega)
  rw [Doubles, isTwice_iff_of_greatest (by decide) h]
  unfold Pattern.IsInfinite
  rw [hexponent, hfraction, h]
  simp [hsign]

/-- No other pattern is that of twice the value. -/
theorem Doubles.eq {vf : UInt32} (h : Doubles uf) (hvf : IsTwice (pattern uf) (pattern vf)) :
    vf = floatTwice uf := pattern_injective (hvf.unique h)

/-- Every pattern is doubled but those of the greatest exponent with a fraction. -/
theorem floatTwice_doubles_iff (uf : UInt32) :
    Doubles uf ↔ ¬ ((pattern uf).exponent = 254 ∧ (pattern uf).fraction ≠ 0) := by
  have hlt := (pattern uf).exponent_lt
  rcases Nat.lt_trichotomy (pattern uf).exponent 254 with hless | hgreatest | hspecial
  · have hdoubles : Doubles uf := by
      by_cases hzero : (pattern uf).exponent = 0
      · exact doubles_denormal hzero
      · exact doubles_normal hzero hless
    exact iff_of_true hdoubles fun h => by omega
  · rw [doubles_greatest_iff hgreatest]
    simp [hgreatest]
  · have hexponent : (pattern uf).exponent = 255 := by omega
    have hdoubles : Doubles uf := by
      rw [Doubles, floatTwice_special hexponent]
      exact isTwice_self fun hfinite => hfinite hexponent
    exact iff_of_true hdoubles fun h => by omega

/-- The greatest finite number: the result is no number. -/
theorem floatTwice_greatest :
    floatTwice 0x7f7fffff = 0x7fffffff ∧ ¬ Doubles 0x7f7fffff := by
  have hexponent : (pattern 0x7f7fffff).exponent = 254 := by decide
  refine ⟨by decide, ?_⟩
  rw [doubles_greatest_iff hexponent]
  decide

/-- This is the greatest finite number. -/
example : (pattern 0x7f7fffff).units = greatestUnits 8 23 := by decide +kernel

end Fields

end CompOrg.Bits
