import CompOrg.Lib.CStdlib
import Mathlib.Data.List.TakeDrop
import Mathlib.Data.List.DropRight

/-! # Decimal integers at the front of a string

What it means that a string begins, after white space, with an integer: a sign or none,
then as many digits as there are. `numeral` finds it, with the exact value.
-/

namespace CompOrg

def isdigit (c : UInt8) : Bool := digitValue c < 10

/-- The value of a string of digits. -/
def decimalValue (digits : List UInt8) : Nat :=
  digits.foldl (fun n c => n * 10 + digitValue c) 0

def Spaces (s : List UInt8) : Prop := ∀ c ∈ s, isspace c = true

/-- The longest run of digits in front of `rest`. -/
structure Digits (digits rest : List UInt8) : Prop where
  nonempty : digits ≠ []
  digit : ∀ c ∈ digits, isdigit c = true
  longest : ∀ c ∈ rest.head?, isdigit c = false

/-- A sign and what it does to a number. -/
inductive Sign : List UInt8 → (Int → Int) → Prop
  | none : Sign [] id
  | plus : Sign ['+'.toUInt8] id
  | minus : Sign ['-'.toUInt8] Int.neg

/-- After white space the string goes on with the decimal integer `n`. -/
def BeginsWith (s : List UInt8) (n : Int) : Prop :=
  ∃ spaces sign f digits rest, s = spaces ++ (sign ++ (digits ++ rest)) ∧ Spaces spaces ∧
    Sign sign f ∧ Digits digits rest ∧ n = f (decimalValue digits)

/-! ## Finding the integer -/

def unsigned (s : List UInt8) : Option Int :=
  if s.takeWhile isdigit = [] then none else some (decimalValue (s.takeWhile isdigit))

def signed : List UInt8 → Option Int
  | [] => none
  | c :: cs =>
      if c = '-'.toUInt8 then (unsigned cs).map Int.neg
      else if c = '+'.toUInt8 then unsigned cs
      else unsigned (c :: cs)

def numeral (s : List UInt8) : Option Int := signed (s.dropWhile isspace)

section Run

variable {p : UInt8 → Bool} {run rest : List UInt8}

/-! ## Longest runs -/

theorem takeWhile_run (hrun : ∀ c ∈ run, p c = true) (hrest : ∀ c ∈ rest.head?, p c = false) :
    (run ++ rest).takeWhile p = run := by
  rw [List.takeWhile_append_of_pos hrun]
  cases rest with
  | nil => simp
  | cons c cs => simp [hrest c rfl]

theorem dropWhile_run (hrun : ∀ c ∈ run, p c = true) (hrest : ∀ c ∈ rest.head?, p c = false) :
    (run ++ rest).dropWhile p = rest := by
  rw [List.dropWhile_append_of_pos hrun]
  cases rest with
  | nil => rfl
  | cons c cs => simp [hrest c rfl]

/-- What is left does not go on with the run. -/
theorem head_dropWhile (p : UInt8 → Bool) (s : List UInt8) :
    ∀ c ∈ (s.dropWhile p).head?, p c = false := by
  intro c hc
  have hhead := List.head?_dropWhile_not p s
  rw [Option.mem_def.mp hc] at hhead
  simpa using hhead

end Run

section Numeral

variable {s sign digits rest spaces : List UInt8} {f : Int → Int} {n m : Int} {c : UInt8}

theorem isdigit_bounds (h : isdigit c = true) : 48 ≤ c ∧ c ≤ 57 := by
  have hd : digitValue c < 10 := by simpa [isdigit] using h
  unfold digitValue at hd
  split at hd
  next hc => exact (Bool.and_eq_true_iff.mp hc).imp of_decide_eq_true of_decide_eq_true
  next =>
    split at hd
    next => omega
    next =>
      split at hd
      next => omega
      next => omega

/-- A digit is neither white space nor a sign. -/
theorem isdigit_ne (h : isdigit c = true) :
    isspace c = false ∧ c ≠ '-'.toUInt8 ∧ c ≠ '+'.toUInt8 := by
  obtain ⟨hlow, hhigh⟩ := isdigit_bounds h
  have hne : ∀ b : UInt8, b < 48 → c ≠ b := fun b hb heq => by grind
  refine ⟨?_, hne _ (by decide), hne _ (by decide)⟩
  have hspace := hne ' '.toUInt8 (by decide)
  grind [isspace]

theorem dropWhile_spaces (hspaces : Spaces spaces) (hrest : ∀ c ∈ rest.head?, isspace c = false) :
    (spaces ++ rest).dropWhile isspace = rest := dropWhile_run hspaces hrest

theorem takeWhile_spaces (s : List UInt8) : Spaces (s.takeWhile isspace) := fun _ hc =>
  List.mem_takeWhile_imp hc

theorem Digits.unsigned (h : Digits digits rest) :
    unsigned (digits ++ rest) = some (decimalValue digits : Int) := by
  rw [CompOrg.unsigned, takeWhile_run h.digit h.longest, if_neg h.nonempty]

theorem Digits.head (h : Digits digits rest) :
    ∃ c cs, digits = c :: cs ∧ isdigit c = true := by
  obtain ⟨c, cs, rfl⟩ := List.exists_cons_of_ne_nil h.nonempty
  exact ⟨c, cs, rfl, h.digit c List.mem_cons_self⟩

theorem unsigned_some (h : unsigned s = some n) :
    ∃ digits rest, s = digits ++ rest ∧ Digits digits rest ∧ n = decimalValue digits := by
  unfold unsigned at h
  split at h
  next => cases h
  next hne =>
    refine ⟨s.takeWhile isdigit, s.dropWhile isdigit, List.takeWhile_append_dropWhile.symm,
      ⟨hne, fun c hc => List.mem_takeWhile_imp hc, head_dropWhile isdigit s⟩,
      (Option.some.inj h).symm⟩

theorem Sign.signed (hsign : Sign sign f) (hdigits : Digits digits rest) :
    signed (sign ++ (digits ++ rest)) = some (f (decimalValue digits)) := by
  cases hsign with
  | none =>
      obtain ⟨c, cs, rfl, hc⟩ := hdigits.head
      obtain ⟨-, hminus, hplus⟩ := isdigit_ne hc
      rw [List.nil_append, List.cons_append, CompOrg.signed, if_neg hminus, if_neg hplus]
      exact hdigits.unsigned
  | plus =>
      rw [List.singleton_append, CompOrg.signed, if_neg (by decide), if_pos rfl]
      exact hdigits.unsigned
  | minus =>
      rw [List.singleton_append, CompOrg.signed, if_pos rfl, hdigits.unsigned]
      rfl

theorem signed_some (h : signed s = some n) :
    ∃ sign f digits rest, s = sign ++ (digits ++ rest) ∧ Sign sign f ∧ Digits digits rest ∧
      n = f (decimalValue digits) := by
  cases s with
  | nil => cases h
  | cons c cs =>
      rw [signed] at h
      split at h
      next hc =>
        obtain ⟨m, hm, rfl⟩ := Option.map_eq_some_iff.mp h
        obtain ⟨digits, rest, rfl, hdigits, rfl⟩ := unsigned_some hm
        exact ⟨_, _, digits, rest, by rw [hc]; rfl, .minus, hdigits, rfl⟩
      next =>
        split at h
        next hc =>
          obtain ⟨digits, rest, rfl, hdigits, rfl⟩ := unsigned_some h
          exact ⟨_, _, digits, rest, by rw [hc]; rfl, .plus, hdigits, rfl⟩
        next =>
          obtain ⟨digits, rest, hs, hdigits, rfl⟩ := unsigned_some h
          exact ⟨_, _, digits, rest, hs, .none, hdigits, rfl⟩

theorem Sign.head (hsign : Sign sign f) (hdigits : Digits digits rest) :
    ∀ c ∈ (sign ++ (digits ++ rest)).head?, isspace c = false := by
  intro c hc
  cases hsign with
  | none =>
      obtain ⟨d, ds, rfl, hd⟩ := hdigits.head
      obtain rfl : d = c := by simpa using hc
      exact (isdigit_ne hd).1
  | plus | minus =>
      obtain rfl := Option.some.inj hc
      decide

theorem beginsWith_iff : BeginsWith s n ↔ numeral s = some n := by
  constructor
  · rintro ⟨spaces, sign, f, digits, rest, rfl, hspaces, hsign, hdigits, rfl⟩
    rw [numeral, dropWhile_spaces hspaces (hsign.head hdigits)]
    exact hsign.signed hdigits
  · intro h
    obtain ⟨sign, f, digits, rest, hs, hsign, hdigits, hn⟩ := signed_some h
    refine ⟨s.takeWhile isspace, sign, f, digits, rest, ?_, takeWhile_spaces s, hsign, hdigits, hn⟩
    rw [← hs, List.takeWhile_append_dropWhile]

/-- A string begins with one integer at most. -/
theorem BeginsWith.unique (hn : BeginsWith s n) (hm : BeginsWith s m) : n = m :=
  Option.some.inj ((beginsWith_iff.mp hn).symm.trans (beginsWith_iff.mp hm))

theorem numeral_none (h : ∀ n, ¬ BeginsWith s n) : numeral s = none := by
  cases hs : numeral s with
  | none => rfl
  | some n => exact (h n (beginsWith_iff.mpr hs)).elim

theorem dropWhile_nil_iff : s.dropWhile isspace = [] ↔ Spaces s := List.dropWhile_eq_nil_iff

end Numeral

end CompOrg
