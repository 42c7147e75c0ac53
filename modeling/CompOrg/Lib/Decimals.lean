import CompOrg.Lib.Figures
import Mathlib.Algebra.Order.Floor.Ring
import Mathlib.Data.Rat.Floor
import Mathlib.Tactic.Linarith

/-! # Numbers with decimal places

A number is written with as many places behind the point as asked for, rounded to the nearest
one. Numbers that look the same are at most one unit of the last place apart.
-/

namespace CompOrg

/-- The nearest integer, of two of them the even one. -/
def roundEven (x : ℚ) : Int :=
  let n := ⌊x⌋
  if x - n < 1 / 2 ∨ x - n = 1 / 2 ∧ n % 2 = 0 then n else n + 1

/-- `%.{places}f` of a number that is not negative, for at least one place. -/
def fixed (char : Nat → UInt8) (places : Nat) (x : ℚ) : List UInt8 :=
  let n := (roundEven (x * 10 ^ places)).toNat
  inFigures 10 char (n / 10 ^ places) ++
    '.'.toUInt8 :: (Positional.padded places 10 (n % 10 ^ places)).map char

variable {char : Nat → UInt8} {places : Nat} {x y : ℚ}

theorem abs_roundEven_sub_le (x : ℚ) : |(roundEven x : ℚ) - x| ≤ 1 / 2 := by
  have hfloor := Int.floor_le x
  have hnext := Int.lt_floor_add_one x
  unfold roundEven
  dsimp only
  rw [abs_le]
  split
  next h =>
    have hhalf : x - ⌊x⌋ ≤ 1 / 2 := h.elim le_of_lt fun heq => le_of_eq heq.1
    constructor <;> linarith
  next h =>
    have hhalf : 1 / 2 ≤ x - ⌊x⌋ := not_lt.mp fun hlt => h (Or.inl hlt)
    push_cast
    constructor <;> linarith

theorem roundEven_nonneg (hx : 0 ≤ x) : 0 ≤ roundEven x := by
  have hfloor := Int.floor_nonneg.mpr hx
  unfold roundEven
  dsimp only
  split <;> omega

theorem abs_sub_le_of_roundEven_eq (h : roundEven x = roundEven y) : |x - y| ≤ 1 := by
  have hx := abs_le.mp (abs_roundEven_sub_le x)
  have hy := abs_le.mp (abs_roundEven_sub_le y)
  rw [h] at hx
  rw [abs_le]
  constructor <;> linarith [hx.1, hx.2, hy.1, hy.2]

theorem Figures.padded_value {base : Nat} (hchar : Figures base char) (hbase : 1 < base)
    (k n : Nat) : CompOrg.digitsValue base ((Positional.padded k base n).map char) = n := by
  rw [CompOrg.digitsValue, hchar.foldl_eq (Positional.padded_below hbase k n), Nat.zero_mul,
    Nat.zero_add, Positional.ofDigits_padded hbase]

/-- The point stands in front of the places. -/
theorem abs_sub_le_of_fixed_eq (hchar : Figures 10 char) (hplaces : 0 < places) (hx : 0 ≤ x)
    (hy : 0 ≤ y) (h : fixed char places x = fixed char places y) : |x - y| ≤ 1 / 10 ^ places := by
  have hpos : (0 : ℚ) < 10 ^ places := by positivity
  have hlen : ∀ n : Nat, ((Positional.padded places 10 (n % 10 ^ places)).map char).length =
      places := by
    intro n
    rw [List.length_map]
    exact Positional.length_padded (by decide) hplaces (Nat.mod_lt n (by positivity))
  have hround (z : ℚ) (hz : 0 ≤ z) : ((roundEven (z * 10 ^ places)).toNat : Int) =
      roundEven (z * 10 ^ places) := Int.toNat_of_nonneg (roundEven_nonneg (by positivity))
  unfold fixed at h
  dsimp only at h
  have hx' := hround x hx
  have hy' := hround y hy
  generalize (roundEven (x * 10 ^ places)).toNat = m at h hx'
  generalize (roundEven (y * 10 ^ places)).toNat = n at h hy'
  obtain ⟨hfront, hback⟩ := List.append_inj' h
    (by rw [List.length_cons, List.length_cons, hlen, hlen])
  have hdiv := congrArg (CompOrg.digitsValue 10) hfront
  have hmod := congrArg (CompOrg.digitsValue 10) (List.cons.inj hback).2
  rw [hchar.digitsValue (by decide), hchar.digitsValue (by decide)] at hdiv
  rw [hchar.padded_value (by decide), hchar.padded_value (by decide)] at hmod
  have hmn : m = n := by
    rw [← Nat.div_add_mod m (10 ^ places), ← Nat.div_add_mod n (10 ^ places), hdiv, hmod]
  have heq : roundEven (x * 10 ^ places) = roundEven (y * 10 ^ places) := by
    rw [← hx', ← hy', hmn]
  have hone := abs_sub_le_of_roundEven_eq heq
  rw [← sub_mul, abs_mul, abs_of_pos hpos] at hone
  exact (le_div_iff₀ hpos).mpr hone

theorem fixed_not_space (hchar : Figures 10 char) :
    ∀ c ∈ fixed char places x, (c != ' '.toUInt8) = true := by
  have hdigit : ∀ c, CompOrg.isDigit 10 c = true → (c != ' '.toUInt8) = true := by
    intro c hc
    rw [bne_iff_ne]
    rintro rfl
    exact absurd hc (by decide)
  unfold fixed
  dsimp only
  intro c hc
  rw [List.mem_append, List.mem_cons] at hc
  rcases hc with hc | rfl | hc
  · exact hdigit c (hchar.isDigit (by decide) c hc)
  · decide
  · obtain ⟨d, hd, rfl⟩ := List.mem_map.mp hc
    have hlt := Positional.padded_below (by decide) places _ d hd
    exact hdigit _ (by rw [CompOrg.isDigit, hchar d hlt, decide_eq_true hlt])

end CompOrg
