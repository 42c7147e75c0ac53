import CompOrg.Bits.FloatPuzzles
import CompOrg.Lib.Figures

/-! # `get_num_val` and the display program `ishow.c`

`ishow.c`, `fshow.c` and `btest.c` have each a copy of `get_num_val`. `ishow` prints a word in
hexadecimal, as a signed and as an unsigned number.
-/

namespace CompOrg.Bits

open FloatFormat TwosComplement

def ascii (s : String) : List UInt8 := s.toList.map Char.toUInt8

/-! ## Reading a number -/

/-- The flags `ishex` and `isfloat` after one more character. -/
def numberFlags (flags : Bool × Bool) (c : UInt8) : Bool × Bool :=
  if c = 'x'.toUInt8 ∨ c = 'X'.toUInt8 then (true, flags.2)
  else if c = 'e'.toUInt8 ∨ c = 'E'.toUInt8 then (flags.1, if flags.1 then flags.2 else true)
  else if c = '.'.toUInt8 then (flags.1, true)
  else flags

/-- The copies differ in what they do with a floating point number, which is given as the
pattern that it converts to, and in their test of `valp`. What follows a number that is no
floating point number is not looked at. -/
def getNumVal (strtof : List UInt8 → Option UInt32) (valp : Bool) (sval : List UInt8) :
    Option UInt32 :=
  if (sval.foldl numberFlags (false, false)).2 then strtof sval
  else
    let llval := strtol sval 0
    let upperbits := llval >>> (31 : Nat)
    if valp ∧ (upperbits = 0 ∨ upperbits = -1 ∨ upperbits = 1) then some (UInt32.ofInt llval)
    else none

/-- The copy of `ishow.c` takes no floating point number. -/
def ishowNumVal (sval : List UInt8) : Option UInt32 := getNumVal (fun _ => none) true sval

def fshowNumVal (strtof : List UInt8 → Option UInt32) (sval : List UInt8) : Option UInt32 :=
  getNumVal strtof true sval

/-- The copy of `btest.c` tests `!*valp`, the value that is there before. -/
def btestNumVal (strtof : List UInt8 → Option UInt32) (old : UInt32) (sval : List UInt8) :
    Option UInt32 := getNumVal strtof (old = 0) sval

/-! ## Printing a word -/

def figure (d : Nat) : UInt8 :=
  if d < 10 then '0'.toUInt8 + UInt8.ofNat d else 'a'.toUInt8 + UInt8.ofNat (d - 10)

/-- `%.{precision}x` -/
def hexFigures (precision : Nat) (u : UInt32) : List UInt8 :=
  (Positional.padded precision 16 u.toNat).map figure

def hexText (uf : UInt32) : List UInt8 := ascii "0x" ++ hexFigures 8 uf

def signedText (uf : UInt32) : List UInt8 := intFigures figure uf.toBitVec.toInt

def unsignedText (uf : UInt32) : List UInt8 := inFigures 10 figure uf.toNat

def showInt (uf : UInt32) : List UInt8 :=
  ascii "Hex = " ++ hexText uf ++ ascii ",\tSigned = " ++ signedText uf ++
    ascii ",\tUnsigned = " ++ unsignedText uf ++ ascii "\n"

/-- The lines of `ishow` for its arguments. -/
def ishow (argv : List (List UInt8)) : List (List UInt8) :=
  argv.map fun sval =>
    match ishowNumVal sval with
    | some uf => showInt uf
    | none => ascii "Cannot convert '" ++ sval ++ ascii "' to 32-bit number\n"

/-! ## What is read -/

section Reading

variable {strtof : List UInt8 → Option UInt32} {valp negative : Bool} {n : Nat}
  {rest : List UInt8}

theorem figures_figure : Figures 16 figure :=
  (by decide : ∀ d < 16, digitValue (figure d) = d)

theorem figures_decimal : Figures 10 figure := figures_figure.mono (by decide)

/-- An exponent is looked for before the letter of the prefix only, and a point everywhere. -/
theorem numberFlags_foldl {s : List UInt8} {ishex : Bool}
    (hs : ∀ c ∈ s, c ≠ '.'.toUInt8 ∧ (ishex = true ∨ c ≠ 'e'.toUInt8 ∧ c ≠ 'E'.toUInt8)) :
    (s.foldl numberFlags (ishex, false)).2 = false := by
  induction s generalizing ishex with
  | nil => rfl
  | cons c s ih =>
      obtain ⟨hc, hs⟩ := List.forall_mem_cons.mp hs
      rw [List.foldl_cons, numberFlags]
      split
      next => exact ih fun c hc => ⟨(hs c hc).1, Or.inl rfl⟩
      next =>
        split
        next hexponent =>
          have hhex : ishex = true := hc.2.resolve_right fun hne =>
            hexponent.elim hne.1 hne.2
          rw [hhex, if_pos rfl]
          exact ih fun c hc => ⟨(hs c hc).1, Or.inl rfl⟩
        next =>
          rw [if_neg hc.1]
          exact ih hs

/-- The words and the `int`s are accepted. -/
theorem getNumVal_of_strtol {sval : List UInt8} {v : Int}
    (hflags : (sval.foldl numberFlags (false, false)).2 = false) (hvalue : strtol sval 0 = v) :
    getNumVal strtof valp sval =
      if valp ∧ -2 ^ 31 ≤ v ∧ v < 2 ^ 32 then some (UInt32.ofInt v) else none := by
  have hupper : v >>> (31 : Nat) = 0 ∨ v >>> (31 : Nat) = -1 ∨ v >>> (31 : Nat) = 1 ↔
      -2 ^ 31 ≤ v ∧ v < 2 ^ 32 := by
    rw [Int.shiftRight_eq_div_pow]
    omega
  rw [getNumVal, if_neg (by rw [hflags]; decide)]
  simp only [hvalue, hupper]

theorem not_letter_of_isDigit {c : UInt8} (h : isDigit 10 c = true) :
    c ≠ '.'.toUInt8 ∧ c ≠ 'e'.toUInt8 ∧ c ≠ 'E'.toUInt8 := by
  refine ⟨?_, ?_, ?_⟩ <;> rintro rfl <;> exact absurd h (by decide)

/-- A number in decimal, with anything behind it that no number goes on with. -/
theorem getNumVal_decimal {sign : List UInt8} {f : Int → Int} (hsign : Sign sign f)
    (hend : ∀ c ∈ rest.head?, isDigit 10 c = false ∧ c ≠ 'x'.toUInt8 ∧ c ≠ 'X'.toUInt8)
    (hrest : ∀ c ∈ rest, c ≠ '.'.toUInt8 ∧ c ≠ 'e'.toUInt8 ∧ c ≠ 'E'.toUInt8) :
    getNumVal strtof valp (sign ++ (inFigures 10 figure n ++ rest)) =
      if valp ∧ -2 ^ 31 ≤ f n ∧ f n < 2 ^ 32 then some (UInt32.ofInt (f n)) else none := by
  have hflags : ((sign ++ (inFigures 10 figure n ++ rest)).foldl numberFlags
      (false, false)).2 = false := by
    apply numberFlags_foldl
    intro c hc
    rw [List.mem_append, List.mem_append] at hc
    rcases hc with hc | hc | hc
    · cases hsign with
      | none => exact (List.not_mem_nil hc).elim
      | plus | minus =>
          rw [List.mem_singleton.mp hc]
          decide
    · obtain ⟨hpoint, hexponent⟩ :=
        not_letter_of_isDigit (figures_decimal.isDigit (by decide) c hc)
      exact ⟨hpoint, Or.inr hexponent⟩
    · exact ⟨(hrest c hc).1, Or.inr (hrest c hc).2⟩
  rw [getNumVal_of_strtol hflags (figures_decimal.strtol_decimal hsign hend)]
  generalize f n = v
  -- a number that is clamped does not fit either
  by_cases hrange : -2 ^ 31 ≤ v ∧ v < 2 ^ 32
  · rw [show max (-2 ^ 63) (min (2 ^ 63 - 1) v) = v by omega]
  · have hout : ¬ (-2 ^ 31 ≤ max (-2 ^ 63) (min (2 ^ 63 - 1) v) ∧
        max (-2 ^ 63) (min (2 ^ 63 - 1) v) < 2 ^ 32) := by omega
    rw [if_neg fun h => hout h.2, if_neg fun h => hrange h.2]

/-! ## Words come back -/

theorem ofInt_toNat (uf : UInt32) : UInt32.ofInt uf.toNat = uf := by
  apply UInt32.toNat_inj.mp
  have hlt := uf.toNat_lt
  rw [UInt32.ofInt, UInt32.toNat_ofNat']
  omega

theorem ofInt_toInt (uf : UInt32) : UInt32.ofInt uf.toBitVec.toInt = uf := by
  apply UInt32.toNat_inj.mp
  have hlt := uf.toNat_lt
  have hvalue : uf.toBitVec.toNat = uf.toNat := rfl
  rw [UInt32.ofInt, UInt32.toNat_ofNat', BitVec.toInt_eq_toNat_cond, hvalue]
  split <;> omega

theorem getNumVal_unsignedText (uf : UInt32) :
    getNumVal strtof true (unsignedText uf) = some uf := by
  have hlt := uf.toNat_lt
  have hread : getNumVal strtof true ([] ++ (inFigures 10 figure uf.toNat ++ [])) = _ :=
    getNumVal_decimal .none (fun _ hc => nomatch hc) (fun _ hc => nomatch hc)
  rw [List.append_nil, if_pos (by simp; omega)] at hread
  exact hread.trans (congrArg some (ofInt_toNat uf))

theorem getNumVal_signedText (uf : UInt32) : getNumVal strtof true (signedText uf) = some uf := by
  have hlt := BitVec.two_mul_toInt_lt (x := uf.toBitVec)
  have hge := BitVec.le_two_mul_toInt (x := uf.toBitVec)
  have hread : getNumVal strtof true (minus (decide (uf.toBitVec.toInt < 0)) ++
      (inFigures 10 figure uf.toBitVec.toInt.natAbs ++ [])) = _ :=
    getNumVal_decimal (sign_minus _) (fun _ hc => nomatch hc) (fun _ hc => nomatch hc)
  rw [List.append_nil, sign_natAbs, if_pos ⟨rfl, by omega, by omega⟩] at hread
  exact hread.trans (congrArg some (ofInt_toInt uf))

theorem getNumVal_hexText (uf : UInt32) : getNumVal strtof true (hexText uf) = some uf := by
  have hlt := uf.toNat_lt
  have hbelow := Positional.padded_below (by decide : 1 < 16) 8 uf.toNat
  have hstrtol : strtol (hexText uf) 0 = uf.toNat := by
    have hhex := figures_figure.strtol_hex hbelow
    rw [Positional.ofDigits_padded (by decide)] at hhex
    refine hhex.trans ?_
    rw [toLong, if_neg Bool.false_ne_true]
    omega
  have hflags : ((hexText uf).foldl numberFlags (false, false)).2 = false := by
    have hrest : ((hexFigures 8 uf).foldl numberFlags (true, false)).2 = false := by
      apply numberFlags_foldl
      intro c hc
      obtain ⟨d, hd, rfl⟩ := List.mem_map.mp hc
      refine ⟨?_, Or.inl rfl⟩
      intro hpoint
      have hdigit := figures_figure d (hbelow d hd)
      rw [hpoint] at hdigit
      have hlt := hbelow d hd
      have hnone : digitValue '.'.toUInt8 = 36 := by decide
      omega
    exact hrest
  have hread : getNumVal strtof true (hexText uf) = _ := getNumVal_of_strtol hflags hstrtol
  rw [hread, if_pos (by simp; omega)]
  exact congrArg some (ofInt_toNat uf)

/-- A number that is followed by nothing a number goes on with is shown when it fits in a word,
as a signed or as an unsigned one, and refused otherwise. -/
theorem ishow_decimal {sign sval : List UInt8} {f : Int → Int} (hsign : Sign sign f)
    (hsval : sval = sign ++ (inFigures 10 figure n ++ rest))
    (hend : ∀ c ∈ rest.head?, isDigit 10 c = false ∧ c ≠ 'x'.toUInt8 ∧ c ≠ 'X'.toUInt8)
    (hrest : ∀ c ∈ rest, c ≠ '.'.toUInt8 ∧ c ≠ 'e'.toUInt8 ∧ c ≠ 'E'.toUInt8) :
    ishow [sval] =
      if -2 ^ 31 ≤ f n ∧ f n < 2 ^ 32 then [showInt (UInt32.ofInt (f n))]
      else [ascii "Cannot convert '" ++ sval ++ ascii "' to 32-bit number\n"] := by
  have hread : ishowNumVal sval = _ := hsval ▸ getNumVal_decimal hsign hend hrest
  by_cases hrange : -2 ^ 31 ≤ f n ∧ f n < 2 ^ 32
  · rw [if_pos ⟨rfl, hrange⟩] at hread
    rw [if_pos hrange, ishow, List.map_singleton, hread]
  · rw [if_neg fun h => hrange h.2] at hread
    rw [if_neg hrange, ishow, List.map_singleton, hread]

/-- The least `int` with a unit behind it, and five with a plus. -/
theorem ishow_signs :
    ishow [ascii "-2147483648m"] = [showInt 0x80000000] ∧ ishow [ascii "+5"] = [showInt 5] := by
  have hend : ∀ c ∈ ['m'.toUInt8].head?,
      isDigit 10 c = false ∧ c ≠ 'x'.toUInt8 ∧ c ≠ 'X'.toUInt8 := by
    intro c hc
    obtain rfl := Option.some.inj hc
    decide
  have hrest : ∀ c ∈ ['m'.toUInt8],
      c ≠ '.'.toUInt8 ∧ c ≠ 'e'.toUInt8 ∧ c ≠ 'E'.toUInt8 := by
    rw [List.forall_mem_singleton]
    decide
  have hleast := ishow_decimal (n := 2147483648) .minus rfl hend hrest
  have hnil : ∀ c ∈ ([] : List UInt8).head?,
      isDigit 10 c = false ∧ c ≠ 'x'.toUInt8 ∧ c ≠ 'X'.toUInt8 := fun _ hc => nomatch hc
  have hfive := ishow_decimal (n := 5) .plus rfl hnil fun _ hc => nomatch hc
  rw [if_pos (by decide)] at hleast hfive
  exact ⟨hleast, hfive⟩

/-- A zero in front makes a number octal. -/
example : ishow [ascii "010"] = [showInt 8] := by decide +kernel

end Reading

end CompOrg.Bits
