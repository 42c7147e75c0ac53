import CompOrg.Lib.Fscanf
import CompOrg.Lib.Positional

/-! # Numerals in characters

A program that writes numbers chooses a character for each digit. Whatever the choice, a
numeral in characters that have the right digit values is read back as its number, by
`strtol` as well as by `fscanf`.
-/

namespace CompOrg

/-- The characters stand for the digits of the base. -/
def Figures (base : Nat) (char : Nat → UInt8) : Prop := ∀ d < base, digitValue (char d) = d

/-- The numeral of `n` in characters. -/
def inFigures (base : Nat) (char : Nat → UInt8) (n : Nat) : List UInt8 :=
  (Positional.numeral base n).map char

def minus (negative : Bool) : List UInt8 := if negative then ['-'.toUInt8] else []

/-- `%d` -/
def intFigures (char : Nat → UInt8) (n : Int) : List UInt8 :=
  minus (decide (n < 0)) ++ inFigures 10 char n.natAbs

section Figures

variable {base : Nat} {char : Nat → UInt8} {negative : Bool} {ds : List Nat} {n : Nat}
  {rest : List UInt8}

/-- Reading on behind `a`, the first digit first. -/
theorem Figures.foldl_eq (hchar : Figures base char) (hds : ∀ d ∈ ds, d < base) (a : Nat) :
    (ds.map char).foldl (fun n c => n * base + digitValue c) a =
      a * base ^ ds.length + Nat.ofDigits base ds.reverse := by
  induction ds generalizing a with
  | nil => simp
  | cons d ds ih =>
      obtain ⟨hd, hds⟩ := List.forall_mem_cons.mp hds
      rw [List.map_cons, List.foldl_cons, ih hds, hchar d hd, Nat.ofDigits_reverse_cons,
        List.length_cons]
      ring

theorem numeral_below (hbase : 1 < base) : ∀ d ∈ Positional.numeral base n, d < base :=
  (Positional.numeral_spec hbase n).below

theorem Figures.digitsValue (hchar : Figures base char) (hbase : 1 < base) :
    digitsValue base (inFigures base char n) = n := by
  rw [CompOrg.digitsValue, inFigures, hchar.foldl_eq (numeral_below hbase), Nat.zero_mul,
    Nat.zero_add]
  exact (Positional.numeral_spec hbase n).value

theorem Figures.isDigit (hchar : Figures base char) (hbase : 1 < base) :
    ∀ c ∈ inFigures base char n, isDigit base c = true := by
  intro c hc
  obtain ⟨d, hd, rfl⟩ := List.mem_map.mp hc
  have hlt := numeral_below hbase d hd
  rw [CompOrg.isDigit, hchar d hlt, decide_eq_true hlt]

theorem inFigures_ne_nil (base : Nat) (char : Nat → UInt8) (n : Nat) :
    inFigures base char n ≠ [] := by
  rw [inFigures, Ne, List.map_eq_nil_iff]
  exact Positional.numeral_ne_nil base n

theorem hexPrefixed_of_ne {s : List UInt8}
    (hs : ∀ c ∈ s.take 2, c ≠ 'x'.toUInt8 ∧ c ≠ 'X'.toUInt8) : hexPrefixed s = false := by
  rw [← Bool.not_eq_true, hexPrefixed, Bool.or_eq_true, beq_iff_eq, beq_iff_eq]
  rintro (heq | heq)
  · exact (hs 'x'.toUInt8 (by rw [heq]; decide)).1 rfl
  · exact (hs 'X'.toUInt8 (by rw [heq]; decide)).2 rfl

/-- The letter of the prefix is a digit from base 34 on. -/
theorem isDigit_ne_letter {c : UInt8} (hle : base ≤ 33) (h : CompOrg.isDigit base c = true) :
    c ≠ 'x'.toUInt8 ∧ c ≠ 'X'.toUInt8 := by
  have hvalue : digitValue c < base := by simpa [CompOrg.isDigit] using h
  constructor
  · rintro rfl
    rw [show digitValue 'x'.toUInt8 = 33 by decide] at hvalue
    omega
  · rintro rfl
    rw [show digitValue 'X'.toUInt8 = 33 by decide] at hvalue
    omega

theorem not_isDigit_of_isspace {c : UInt8} (hle : base ≤ 36) (h : isspace c = true) :
    CompOrg.isDigit base c = false := by
  rw [← Bool.not_eq_true]
  intro hdigit
  rw [(ne_of_zero_le (zero_le_of_isDigit hle hdigit)).1] at h
  cases h

/-- What is written is not read as a prefix, at the end or in front of white space. -/
theorem Figures.not_hexPrefixed (hchar : Figures base char) (hbase : 1 < base) (hle : base ≤ 33)
    (hrest : ∀ c ∈ rest.head?, isspace c = true) :
    hexPrefixed (inFigures base char n ++ rest) = false := by
  apply hexPrefixed_of_ne
  intro c hc
  have hpos := List.length_pos_iff.mpr (inFigures_ne_nil base char n)
  rw [List.take_append, List.mem_append] at hc
  rcases hc with hc | hc
  · exact isDigit_ne_letter hle (hchar.isDigit hbase c (List.mem_of_mem_take hc))
  · have hhead : c ∈ rest.head? := by
      have hone : c ∈ rest.take 1 := List.take_subset_take_left rest (by omega) hc
      rw [List.take_one] at hone
      exact Option.mem_toList.mp hone
    have hspace := hrest c hhead
    constructor <;> rintro rfl <;> exact absurd hspace (by decide)

/-- A numeral behind a sign is the item that a conversion reads. -/
theorem Figures.matches (hchar : Figures base char) (hbase : 1 < base) (hle : base ≤ 33)
    (hrest : ∀ c ∈ rest.head?, isspace c = true) :
    Matches base (minus negative ++ (inFigures base char n ++ rest)) rest
      (if negative then -(n : Int) else n) := by
  have hfront : Front base [] (inFigures base char n ++ rest) :=
    .none fun _ => hchar.not_hexPrefixed hbase hle hrest
  have hend : ∀ c ∈ rest.head?, CompOrg.isDigit base c = false := fun c hc =>
    not_isDigit_of_isspace (by omega) (hrest c hc)
  have hvalue := hchar.digitsValue (n := n) hbase
  cases negative with
  | false =>
      exact ⟨[], id, [], inFigures base char n, rfl, .none, hfront, inFigures_ne_nil base char n,
        hchar.isDigit hbase, hend, by simp [hvalue]⟩
  | true =>
      exact ⟨['-'.toUInt8], Int.neg, [], inFigures base char n, rfl, .minus, hfront,
        inFigures_ne_nil base char n, hchar.isDigit hbase, hend, by rw [hvalue]; rfl⟩

theorem Figures.strtol (hchar : Figures base char) (hbase : 1 < base) (hle : base ≤ 33) :
    strtol (minus negative ++ inFigures base char n) base = toLong negative n := by
  have hstart : hexPrefixed (inFigures base char n ++ []) = false :=
    hchar.not_hexPrefixed hbase hle fun c hc => nomatch hc
  have hall := hchar.isDigit (n := n) hbase
  have hrun : (inFigures base char n).takeWhile (CompOrg.isDigit base) = inFigures base char n :=
    List.takeWhile_eq_self_iff.mpr hall
  have hvalue : magnitude base (inFigures base char n) = n :=
    (congrArg (CompOrg.digitsValue base) hrun).trans (hchar.digitsValue hbase)
  obtain ⟨c, cs, hcs⟩ := List.exists_cons_of_ne_nil (inFigures_ne_nil base char n)
  rw [hcs] at hstart hvalue hall
  rw [List.append_nil] at hstart
  have hdigit : CompOrg.isDigit base c = true := hall c List.mem_cons_self
  obtain ⟨hspace, hminus, hplus⟩ := ne_of_zero_le (zero_le_of_isDigit (by omega) hdigit)
  have hzero : base ≠ 0 := by omega
  rw [hcs]
  cases negative with
  | false =>
      have hdrop : (c :: cs).dropWhile isspace = c :: cs := by simp [hspace]
      have hsign : (c == '-'.toUInt8) = false := beq_eq_false_iff_ne.mpr hminus
      simp [CompOrg.strtol, minus, hdrop, hsign, hplus, hstart, hzero, hvalue]
  | true =>
      have hdrop : ('-'.toUInt8 :: c :: cs).dropWhile isspace = '-'.toUInt8 :: c :: cs := by
        simp [show isspace '-'.toUInt8 = false by decide]
      simp [CompOrg.strtol, minus, hdrop, hstart, hzero, hvalue]

/-! ## The base told by the text -/

theorem Figures.magnitude (hchar : Figures base char) (hds : ∀ d ∈ ds, d < base)
    (hrest : ∀ c ∈ rest.head?, CompOrg.isDigit base c = false) :
    magnitude base (ds.map char ++ rest) = Nat.ofDigits base ds.reverse := by
  have hdigits : ∀ c ∈ ds.map char, CompOrg.isDigit base c = true := by
    intro c hc
    obtain ⟨d, hd, rfl⟩ := List.mem_map.mp hc
    rw [CompOrg.isDigit, hchar d (hds d hd), decide_eq_true (hds d hd)]
  have hrun : (ds.map char ++ rest).takeWhile (CompOrg.isDigit base) = ds.map char :=
    takeWhile_run hdigits hrest
  have hvalue := hchar.foldl_eq hds 0
  rw [Nat.zero_mul, Nat.zero_add] at hvalue
  rw [CompOrg.magnitude, ← hvalue]
  exact congrArg (List.foldl (fun n c => n * base + digitValue c) 0) hrun

theorem sign_minus (negative : Bool) :
    Sign (minus negative) (if negative then Int.neg else id) := by
  cases negative with
  | false => exact .none
  | true => exact .minus

/-- Past the sign nothing is skipped in front of a digit. -/
theorem strtol_sign {sign : List UInt8} {f : Int → Int} (hsign : Sign sign f) {c : UInt8}
    (cs : List UInt8) (hdigit : CompOrg.isDigit 10 c = true) :
    strtol (sign ++ c :: cs) 0 =
      let hex := hexPrefixed (c :: cs)
      max (-2 ^ 63) (min (2 ^ 63 - 1) (f (CompOrg.magnitude
        (if hex then 16 else if c == '0'.toUInt8 then 8 else 10)
        (if hex then (c :: cs).drop 2 else c :: cs)))) := by
  obtain ⟨hspace, hminus, hplus⟩ := ne_of_zero_le (zero_le_of_isDigit (by decide) hdigit)
  cases hsign with
  | none =>
      have hdrop : (c :: cs).dropWhile isspace = c :: cs := by simp [hspace]
      have hhead : (c == '-'.toUInt8) = false := beq_eq_false_iff_ne.mpr hminus
      change _ = toLong false _
      simp [CompOrg.strtol, hdrop, hhead, hplus]
  | plus =>
      have hdrop : ('+'.toUInt8 :: c :: cs).dropWhile isspace = '+'.toUInt8 :: c :: cs := by
        simp [show isspace '+'.toUInt8 = false by decide]
      have hhead : ('+'.toUInt8 == '-'.toUInt8) = false := by decide
      change _ = toLong false _
      simp [CompOrg.strtol, hdrop, hhead]
  | minus =>
      have hdrop : ('-'.toUInt8 :: c :: cs).dropWhile isspace = '-'.toUInt8 :: c :: cs := by
        simp [show isspace '-'.toUInt8 = false by decide]
      change _ = toLong true _
      simp [CompOrg.strtol, hdrop]

theorem Figures.mono {base' : Nat} (hchar : Figures base char) (hle : base' ≤ base) :
    Figures base' char := fun d hd => hchar d (hd.trans_le hle)

theorem not_isDigit_mono {base' : Nat} {c : UInt8} (hle : base' ≤ base)
    (h : CompOrg.isDigit base c = false) : CompOrg.isDigit base' c = false := by
  rw [CompOrg.isDigit, decide_eq_false_iff_not, not_lt] at h ⊢
  exact hle.trans h

/-- A decimal numeral does not begin with a zero, unless it is that of zero. -/
theorem Figures.strtol_decimal (hchar : Figures 10 char) {sign : List UInt8} {f : Int → Int}
    (hsign : Sign sign f)
    (hrest : ∀ c ∈ rest.head?, CompOrg.isDigit 10 c = false ∧ c ≠ 'x'.toUInt8 ∧ c ≠ 'X'.toUInt8) :
    CompOrg.strtol (sign ++ (inFigures 10 char n ++ rest)) 0 =
      max (-2 ^ 63) (min (2 ^ 63 - 1) (f n)) := by
  have hend : ∀ c ∈ rest.head?, CompOrg.isDigit 10 c = false := fun c hc => (hrest c hc).1
  have hspec := Positional.numeral_spec (by decide : 1 < 10) n
  have hstart : hexPrefixed (inFigures 10 char n ++ rest) = false := by
    apply hexPrefixed_of_ne
    intro c hc
    have hpos := List.length_pos_iff.mpr (inFigures_ne_nil 10 char n)
    rw [List.take_append, List.mem_append] at hc
    rcases hc with hc | hc
    · exact isDigit_ne_letter (by decide) (hchar.isDigit (by decide) c (List.mem_of_mem_take hc))
    · have hone : c ∈ rest.take 1 := List.take_subset_take_left rest (by omega) hc
      rw [List.take_one] at hone
      exact (hrest c (Option.mem_toList.mp hone)).2
  have hvalue := hchar.magnitude hspec.below hend
  rw [hspec.value] at hvalue
  unfold inFigures at hstart ⊢
  cases hds : Positional.numeral 10 n with
  | nil => exact (hspec.nonempty hds).elim
  | cons d ds =>
      rw [hds] at hstart hvalue
      have hd : d < 10 := hspec.below d (by rw [hds]; exact List.mem_cons_self)
      have hdigit : CompOrg.isDigit 10 (char d) = true := by
        rw [CompOrg.isDigit, hchar d hd, decide_eq_true hd]
      rw [List.map_cons, List.cons_append, strtol_sign hsign _ hdigit]
      rw [List.map_cons, List.cons_append] at hstart hvalue
      simp only [hstart, Bool.false_eq_true, if_false]
      split
      next hc =>
        have hzero : d = 0 := by
          have hvalue := hchar d hd
          rw [eq_of_beq hc] at hvalue
          exact hvalue.symm
        have hsingle : ds = [] := by
          have hleading := hspec.leading (by rw [hds, hzero]; rfl)
          rw [hds] at hleading
          exact (List.cons.inj hleading).2
        have hn : n = 0 := by
          have hvalue := hspec.value
          rw [hds, hsingle, hzero] at hvalue
          simpa using hvalue.symm
        have height : CompOrg.magnitude 8 ([0].map char ++ rest) = 0 :=
          (hchar.mono (by decide)).magnitude (by decide) fun c hc =>
            not_isDigit_mono (by decide) (hend c hc)
        rw [hsingle, hzero, hn]
        exact congrArg (fun m : Nat => max (-2 ^ 63) (min (2 ^ 63 - 1) (f m))) height
      next => rw [hvalue]

theorem sign_natAbs (n : Int) : (if decide (n < 0) then Int.neg else id) (n.natAbs : Int) = n := by
  by_cases h : n < 0
  · rw [if_pos (decide_eq_true h)]
    change -(n.natAbs : Int) = n
    omega
  · rw [if_neg (by simpa using h)]
    change (n.natAbs : Int) = n
    omega

theorem Figures.strtol_intFigures (hchar : Figures 10 char) (n : Int) :
    CompOrg.strtol (intFigures char n) 0 = max (-2 ^ 63) (min (2 ^ 63 - 1) n) := by
  have hread : CompOrg.strtol (minus (decide (n < 0)) ++ (inFigures 10 char n.natAbs ++ [])) 0 =
      _ := hchar.strtol_decimal (sign_minus _) fun _ hc => nomatch hc
  rw [List.append_nil, sign_natAbs] at hread
  exact hread

/-- Behind the prefix there may be zeros. -/
theorem Figures.strtol_hex (hchar : Figures 16 char) {ds : List Nat} (hds : ∀ d ∈ ds, d < 16) :
    CompOrg.strtol ('0'.toUInt8 :: 'x'.toUInt8 :: ds.map char) 0 =
      toLong false (Nat.ofDigits 16 ds.reverse) := by
  have hend : ∀ c ∈ ([] : List UInt8).head?, CompOrg.isDigit 16 c = false := fun _ hc => nomatch hc
  have hdigit : CompOrg.isDigit 10 '0'.toUInt8 = true := by decide
  have hvalue := hchar.magnitude hds hend
  rw [List.append_nil] at hvalue
  rw [← hvalue]
  exact strtol_sign .none ('x'.toUInt8 :: ds.map char) hdigit

end Figures

end CompOrg
