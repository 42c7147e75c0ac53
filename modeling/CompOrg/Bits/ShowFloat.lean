import CompOrg.Bits.FloatPuzzles
import CompOrg.Bits.Show
import CompOrg.Lib.Decimals

/-! # The display program `fshow.c`

A pattern is printed with its fields, and as a sign, a significand and an exponent of two. The
fields tell all patterns apart, the last line all but those that are no numbers.
-/

namespace CompOrg.Bits

open FloatFormat TwosComplement

def getExp (uf : UInt32) : UInt32 := (uf >>> 23) &&& 0xff

def getFrac (uf : UInt32) : UInt32 := uf &&& 0x7fffff

def getSign (uf : UInt32) : UInt32 := (uf >>> 31) &&& 0x1

/-- What the last line tells. -/
inductive Shown
  | infinity (sign : Bool)
  | notANumber
  | number (denorm sign : Bool) (fman : ℚ) (uexp : Int)

/-- The quotient of two integers below `2 ^ 24` is exact. -/
def shown (uf : UInt32) : Shown :=
  let exp := getExp uf
  let frac := getFrac uf
  let sign := getSign uf ≠ 0
  if exp = 0xff then
    if frac = 0 then .infinity sign else .notANumber
  else
    let denorm := exp = 0
    let uexp : CInt := if denorm then 1 - 127#32 else exp.toBitVec - 127#32
    let mantissa : CInt := if denorm then frac.toBitVec else frac.toBitVec + 1#32 <<< 23
    let fman : ℚ := (mantissa.toInt : ℚ) / 2 ^ 23
    .number denorm sign fman uexp.toInt

/-- `sign ? '-' : '+'` -/
def signChar (sign : Bool) : UInt8 := if sign then '-'.toUInt8 else '+'.toUInt8

def Shown.text : Shown → List UInt8
  | .infinity sign => signChar sign :: ascii "Infinity\n"
  | .notANumber => ascii "Not-A-Number\n"
  | .number denorm sign fman uexp =>
      (if denorm then ascii "Denormalized" else ascii "Normalized") ++
        (ascii ".  " ++ (signChar sign :: (fixed figure 10 fman ++
          (ascii " X 2^(" ++ (intFigures figure uexp ++ ascii ")\n")))))

/-- The lines of `show_float`; the first one prints `f` with `%.10g`. -/
structure FloatLines where
  f : Pattern 8 23
  bits : List UInt8
  last : List UInt8

def showFloat (uf : UInt32) : FloatLines where
  f := u2f uf
  bits := ascii "Bit Representation " ++ (hexText uf ++ (ascii ", sign = " ++
    hexFigures 1 (getSign uf) ++ ascii ", exponent = 0x" ++ hexFigures 2 (getExp uf) ++
    ascii ", fraction = 0x" ++ hexFigures 6 (getFrac uf) ++ ascii "\n"))
  last := (shown uf).text

/-- The patterns that `fshow` prints, and the argument that ends the program. -/
def fshow (strtof : List UInt8 → Option UInt32) :
    List (List UInt8) → List FloatLines × Option (List UInt8)
  | [] => ([], none)
  | sval :: argv =>
      match fshowNumVal strtof sval with
      | some uf => (showFloat uf :: (fshow strtof argv).1, (fshow strtof argv).2)
      | none => ([], some sval)

variable {uf vf : UInt32}

/-- Each of the three numbers on a line of `ishow` gives that line again, and `fshow` prints the
lines of that pattern for it. -/
theorem ishow_again (strtof : List UInt8 → Option UInt32) (uf : UInt32) :
    ishow [hexText uf, signedText uf, unsignedText uf] = List.replicate 3 (showInt uf) ∧
      fshow strtof [hexText uf, signedText uf, unsignedText uf] =
        (List.replicate 3 (showFloat uf), none) := by
  constructor
  · simp only [ishow, ishowNumVal, List.map_cons, List.map_nil, getNumVal_hexText,
      getNumVal_signedText, getNumVal_unsignedText]
    rfl
  · simp only [fshow, fshowNumVal, getNumVal_hexText, getNumVal_signedText,
      getNumVal_unsignedText]
    rfl

/-! ## What is shown of a pattern -/

/-- The line tells the value of the pattern, with a significand in the range of its kind. -/
def Shown.Describes : Shown → Pattern 8 23 → Prop
  | .infinity sign, x => x.IsInfinite ∧ sign = x.negative
  | .notANumber, x => x.isNaN = true
  | .number denorm sign fman uexp, x =>
      x.IsFinite ∧ sign = x.negative ∧ x.value = (if sign then -fman else fman) * 2 ^ uexp ∧
        if denorm then 0 ≤ fman ∧ fman < 1 else 1 ≤ fman ∧ fman < 2

theorem getSign_ne_zero : (decide (getSign uf ≠ 0)) = (pattern uf).negative := by
  have hlt := uf.toNat_lt
  have hbit : (getSign uf).toNat = uf.toNat / 2 ^ 31 % 2 := by
    have hmask : (0x1 : UInt32).toNat = 2 ^ 1 - 1 := rfl
    have hshift : (31 : UInt32).toNat % 32 = 31 := rfl
    rw [getSign, UInt32.toNat_and, hmask, Nat.and_two_pow_sub_one_eq_mod,
      UInt32.toNat_shiftRight, hshift, Nat.shiftRight_eq_div_pow]
  have hiff : getSign uf ≠ 0 ↔ 2 ^ 31 ≤ uf.toNat := by
    rw [ne_eq, ← UInt32.toNat_inj, hbit, UInt32.toNat_zero]
    omega
  exact decide_eq_decide.mpr hiff

theorem toInt_of_lt {u : UInt32} {n : Nat} (hvalue : u.toNat = n) (hlt : n < 2 ^ 31) :
    u.toBitVec.toInt = n := by
  have htoNat : u.toBitVec.toNat = n := hvalue
  rw [BitVec.toInt_eq_toNat_of_lt (by omega), htoNat]

theorem value_of_parts {x : Pattern 8 23} {fman : ℚ} {uexp : Int}
    (h : x.magnitude = fman * 2 ^ uexp) :
    x.value = (if x.negative then -fman else fman) * 2 ^ uexp := by
  rw [Pattern.value, h]
  cases x.negative with
  | false => rfl
  | true => exact (neg_mul fman (2 ^ uexp)).symm

theorem shown_describes (uf : UInt32) : (shown uf).Describes (pattern uf) := by
  have hexp : (getExp uf).toNat = (pattern uf).exponent := exponentBits_toNat uf
  have hfrac : (getFrac uf).toNat = (pattern uf).fraction := fractionBits_toNat uf
  have hlt := (pattern uf).exponent_lt
  have hfraction := (pattern uf).fraction_lt
  have hspecial : getExp uf = 0xff ↔ (pattern uf).exponent = 255 := by
    rw [← UInt32.toNat_inj, hexp]
    rfl
  have hdenorm : getExp uf = 0 ↔ (pattern uf).exponent = 0 := by
    rw [← UInt32.toNat_inj, hexp]
    rfl
  have hzero : getFrac uf = 0 ↔ (pattern uf).fraction = 0 := by
    rw [← UInt32.toNat_inj, hfrac]
    rfl
  unfold shown
  simp only [hspecial, hdenorm, hzero, getSign_ne_zero]
  split
  next hinf =>
    split
    next h => exact ⟨⟨hinf, h⟩, rfl⟩
    next h => simp [Shown.Describes, Pattern.isNaN, hinf, h]
  next hfinite =>
    have hvalue := toInt_of_lt hfrac (by omega)
    have hbias : bias 8 = 127 := rfl
    by_cases hdenormal : (pattern uf).exponent = 0
    · have huexp : (1 - 127#32 : CInt).toInt = 1 - 127 := by decide
      rw [if_pos hdenormal, if_pos hdenormal, decide_eq_true hdenormal, hvalue, huexp]
      refine ⟨hfinite, rfl, value_of_parts ?_, ?_⟩
      · rw [Pattern.magnitude, if_pos hdenormal, hbias]
        rfl
      · rw [if_pos rfl, div_lt_one (by norm_num)]
        refine ⟨by positivity, ?_⟩
        exact_mod_cast hfraction
    · have huexp : ((getExp uf).toBitVec - 127#32).toInt = (pattern uf).exponent - 127 := by
        have hvalue := toInt_of_lt hexp (by omega)
        rw [toInt_sub_ofNat (by omega), hvalue]
        rfl
      have hmantissa : ((getFrac uf).toBitVec + 1#32 <<< 23).toInt =
          (pattern uf).fraction + 2 ^ 23 := by
        rw [show 1#32 <<< 23 = BitVec.ofNat 32 (2 ^ 23) by decide, toInt_add_ofNat (by omega),
          hvalue]
        rfl
      have hfman : (((pattern uf).fraction + 2 ^ 23 : Int) : ℚ) / 2 ^ 23 =
          1 + (pattern uf).fraction / 2 ^ 23 := by
        push_cast
        field_simp
        ring
      rw [if_neg hdenormal, if_neg hdenormal, decide_eq_false hdenormal, huexp, hmantissa, hfman]
      refine ⟨hfinite, rfl, value_of_parts ?_, ?_⟩
      · rw [Pattern.magnitude, if_neg hdenormal, hbias]
      · have hlt : ((pattern uf).fraction : ℚ) / 2 ^ 23 < 1 := by
          rw [div_lt_one (by norm_num)]
          exact_mod_cast hfraction
        have hnonneg : (0 : ℚ) ≤ (pattern uf).fraction / 2 ^ 23 := by positivity
        rw [if_neg Bool.false_ne_true]
        constructor <;> linarith

theorem shown_of_isNaN (h : (pattern uf).isNaN = true) : shown uf = .notANumber := by
  have hdescribes := shown_describes uf
  rw [Pattern.isNaN, Bool.and_eq_true, beq_iff_eq, bne_iff_ne] at h
  cases hshown : shown uf with
  | notANumber => rfl
  | infinity sign =>
      rw [hshown] at hdescribes
      exact (h.2 hdescribes.1.2).elim
  | number denorm sign fman uexp =>
      rw [hshown] at hdescribes
      exact (hdescribes.1 h.1).elim

theorem shown_eq_iff :
    shown uf = shown vf ↔ uf = vf ∨ (pattern uf).isNaN = true ∧ (pattern vf).isNaN = true := by
  have hu := shown_describes uf
  have hv := shown_describes vf
  constructor
  · intro h
    rw [← h] at hv
    cases hshown : shown uf with
    | infinity sign =>
        rw [hshown] at hu hv
        obtain ⟨⟨huexponent, hufraction⟩, husign⟩ := hu
        obtain ⟨⟨hvexponent, hvfraction⟩, hvsign⟩ := hv
        exact Or.inl (pattern_injective (Pattern.ext (husign.symm.trans hvsign)
          (huexponent.trans hvexponent.symm) (hufraction.trans hvfraction.symm)))
    | notANumber =>
        rw [hshown] at hu hv
        exact Or.inr ⟨hu, hv⟩
    | number denorm sign fman uexp =>
        rw [hshown] at hu hv
        obtain ⟨-, husign, huvalue, -⟩ := hu
        obtain ⟨-, hvsign, hvvalue, -⟩ := hv
        exact Or.inl (pattern_injective
          (eq_of_value (husign.symm.trans hvsign) (huvalue.trans hvvalue.symm)))
  · rintro (rfl | ⟨hunan, hvnan⟩)
    · rfl
    · rw [shown_of_isNaN hunan, shown_of_isNaN hvnan]

/-! ## The text of the lines -/

/-- Values that are told apart by ten decimal places and the exponent. -/
def Shown.Printable : Shown → Prop
  | .number _ _ fman uexp => (∃ k : Nat, fman = k / 2 ^ 23) ∧ -2 ^ 31 ≤ uexp ∧ uexp < 2 ^ 31
  | _ => True

theorem shown_printable (uf : UInt32) : (shown uf).Printable := by
  have hdescribes := shown_describes uf
  unfold shown at hdescribes ⊢
  dsimp only at hdescribes ⊢
  split at hdescribes
  next hspecial =>
    rw [if_pos hspecial]
    split <;> trivial
  next hfinite =>
    rw [if_neg hfinite]
    obtain ⟨-, -, -, hrange⟩ := hdescribes
    generalize (if getExp uf = 0 then (getFrac uf).toBitVec
      else (getFrac uf).toBitVec + 1#32 <<< 23 : CInt) = mantissa at hrange ⊢
    generalize (if getExp uf = 0 then 1 - 127#32 else (getExp uf).toBitVec - 127#32 : CInt) = uexp
    have hnonneg : (0 : ℚ) ≤ mantissa.toInt / 2 ^ 23 := by
      split at hrange
      next => exact hrange.1
      next => exact zero_le_one.trans hrange.1
    have hmantissa : 0 ≤ mantissa.toInt := by
      have hmul := mul_nonneg hnonneg (by positivity : (0 : ℚ) ≤ 2 ^ 23)
      rw [div_mul_cancel₀ _ (by positivity)] at hmul
      exact_mod_cast hmul
    obtain ⟨k, hk⟩ := Int.eq_ofNat_of_zero_le hmantissa
    have hlow := BitVec.le_two_mul_toInt (x := uexp)
    have hhigh := BitVec.two_mul_toInt_lt (x := uexp)
    exact ⟨⟨k, by rw [hk]; rfl⟩, by omega, by omega⟩

theorem fman_eq {x y : ℚ} {k l : Nat} (hx : x = k / 2 ^ 23) (hy : y = l / 2 ^ 23)
    (h : fixed figure 10 x = fixed figure 10 y) : x = y := by
  have hnonneg : (0 : ℚ) ≤ x ∧ (0 : ℚ) ≤ y := by
    rw [hx, hy]
    constructor <;> positivity
  have hle := abs_sub_le_of_fixed_eq figures_decimal (by decide) hnonneg.1 hnonneg.2 h
  rw [hx, hy, ← sub_div, abs_div, abs_of_pos (by positivity : (0 : ℚ) < 2 ^ 23),
    div_le_iff₀ (by positivity)] at hle
  have hlt : |(k : ℚ) - l| < 1 := hle.trans_lt (by norm_num)
  have hint : |(k : Int) - l| < 1 := by exact_mod_cast hlt
  have hkl : (k : Int) = l := sub_eq_zero.mp (Int.abs_lt_one_iff.mp hint)
  rw [hx, hy, Nat.cast_inj.mp hkl]

/-- The first three characters, which tell the kinds apart. -/
def Shown.start : Shown → List UInt8
  | .infinity sign => signChar sign :: ascii "In"
  | .notANumber => ascii "Not"
  | .number denorm _ _ _ => if denorm then ascii "Den" else ascii "Nor"

theorem take_text (a : Shown) : a.text.take 3 = a.start := by
  cases a with
  | infinity sign => rfl
  | notANumber => rfl
  | number denorm sign fman uexp => cases denorm <;> rfl

theorem infinity_start_ne_notANumber (sign : Bool) :
    (Shown.infinity sign).start ≠ Shown.notANumber.start := by
  cases sign <;> decide

theorem infinity_start_ne_number (sign denorm sign' : Bool) (fman : ℚ) (uexp : Int) :
    (Shown.infinity sign).start ≠ (Shown.number denorm sign' fman uexp).start := by
  dsimp only [Shown.start]
  cases sign <;> cases denorm <;> decide

theorem notANumber_start_ne_number (denorm sign : Bool) (fman : ℚ) (uexp : Int) :
    Shown.notANumber.start ≠ (Shown.number denorm sign fman uexp).start := by
  dsimp only [Shown.start]
  cases denorm <;> decide

theorem signChar_injective {a b : Bool} (h : signChar a = signChar b) : a = b := by
  revert a b
  decide

theorem intFigures_injective {m n : Int} (hm : -2 ^ 31 ≤ m ∧ m < 2 ^ 31)
    (hn : -2 ^ 31 ≤ n ∧ n < 2 ^ 31) (h : intFigures figure m = intFigures figure n) : m = n := by
  have hread := congrArg (strtol · 0) h
  rw [figures_decimal.strtol_intFigures, figures_decimal.strtol_intFigures] at hread
  omega

/-- A significand ends at the space behind it. -/
theorem fixed_append_inj {x y : ℚ} {u v : List UInt8}
    (h : fixed figure 10 x ++ ' '.toUInt8 :: u = fixed figure 10 y ++ ' '.toUInt8 :: v) :
    fixed figure 10 x = fixed figure 10 y ∧ u = v := by
  have hspace (t : List UInt8) :
      ∀ c ∈ (' '.toUInt8 :: t).head?, (c != ' '.toUInt8) = false := by
    intro c hc
    obtain rfl := Option.some.inj hc
    decide
  have htake := congrArg (List.takeWhile (· != ' '.toUInt8)) h
  rw [takeWhile_run (fixed_not_space figures_decimal) (hspace u),
    takeWhile_run (fixed_not_space figures_decimal) (hspace v)] at htake
  rw [htake] at h
  exact ⟨htake, (List.cons.inj (List.append_cancel_left h)).2⟩

theorem text_injective {a b : Shown} (ha : a.Printable) (hb : b.Printable)
    (h : a.text = b.text) : a = b := by
  have hstart := congrArg (List.take 3) h
  rw [take_text, take_text] at hstart
  cases a with
  | infinity sign =>
      cases b with
      | infinity sign' => rw [signChar_injective (List.cons.inj h).1]
      | notANumber => exact (infinity_start_ne_notANumber _ hstart).elim
      | number => exact (infinity_start_ne_number _ _ _ _ _ hstart).elim
  | notANumber =>
      cases b with
      | infinity => exact (infinity_start_ne_notANumber _ hstart.symm).elim
      | notANumber => rfl
      | number => exact (notANumber_start_ne_number _ _ _ _ hstart).elim
  | number denorm sign x m =>
      cases b with
      | infinity => exact (infinity_start_ne_number _ _ _ _ _ hstart.symm).elim
      | notANumber => exact (notANumber_start_ne_number _ _ _ _ hstart.symm).elim
      | number denorm' sign' y n =>
          obtain ⟨⟨k, hx⟩, hm⟩ := ha
          obtain ⟨⟨l, hy⟩, hn⟩ := hb
          have hdenorm : denorm = denorm' := by
            dsimp only [Shown.start] at hstart
            cases denorm <;> cases denorm' <;> first | rfl | exact absurd hstart (by decide)
          subst hdenorm
          have hrest := List.append_cancel_left (List.append_cancel_left h)
          obtain ⟨hsign, hrest⟩ := List.cons.inj hrest
          obtain ⟨hfixed, hrest⟩ := fixed_append_inj hrest
          have hexponent : intFigures figure m = intFigures figure n :=
            List.append_cancel_right (@List.append_cancel_left _ (ascii "X 2^(") _ _ hrest)
          rw [signChar_injective hsign, fman_eq hx hy hfixed, intFigures_injective hm hn hexponent]

theorem bits_eq_iff : (showFloat uf).bits = (showFloat vf).bits ↔ uf = vf := by
  constructor
  · intro h
    have hlen (u : UInt32) : (hexText u).length = 10 := by
      have hpadded := Positional.length_padded (by decide : 1 < 16) (by decide : 0 < 8) u.toNat_lt
      rw [hexText, hexFigures, List.length_append, List.length_map, hpadded]
      rfl
    have hhex := (List.append_inj (List.append_cancel_left h) ((hlen uf).trans (hlen vf).symm)).1
    have hread := congrArg (getNumVal (fun _ => none) true) hhex
    rw [getNumVal_hexText, getNumVal_hexText] at hread
    exact Option.some.inj hread
  · rintro rfl
    rfl

/-- The line of the fields is different for any two patterns, and the last line is the same only
when neither is a number. -/
theorem showFloat_eq_iff (uf vf : UInt32) :
    ((showFloat uf).bits = (showFloat vf).bits ↔ uf = vf) ∧
      ((showFloat uf).last = (showFloat vf).last ↔
        uf = vf ∨ (pattern uf).isNaN = true ∧ (pattern vf).isNaN = true) := by
  refine ⟨bits_eq_iff, ?_⟩
  rw [← shown_eq_iff]
  exact ⟨text_injective (shown_printable uf) (shown_printable vf), congrArg Shown.text⟩

example : (showFloat 0x80000001).last =
    ascii "Denormalized.  -0.0000001192 X 2^(-126)\n" := by decide +kernel

end CompOrg.Bits
