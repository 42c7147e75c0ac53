import Mathlib.Data.Nat.Digits.Lemmas

/-! # Numerals in a base

The digits of a number with the most significant one first, and what it means that a
list of digits is its numeral: there is no zero in front but for zero itself.
-/

namespace CompOrg.Positional

structure Numeral (b : Nat) (ds : List Nat) (n : Nat) : Prop where
  nonempty : ds ≠ []
  below : ∀ d ∈ ds, d < b
  leading : ds.head? = some 0 → ds = [0]
  value : Nat.ofDigits b ds.reverse = n

def numeral (b n : Nat) : List Nat := if n = 0 then [0] else (Nat.digits b n).reverse

variable {b n : Nat} {ds : List Nat}

theorem numeral_of_lt (hn : n < b) : numeral b n = [n] := by
  unfold numeral
  split
  next h => rw [h]
  next h =>
    rw [Nat.digits_of_lt b n h hn]
    rfl

/-- The last digit is the remainder. -/
theorem numeral_of_le (hb : 1 < b) (hn : b ≤ n) :
    numeral b n = numeral b (n / b) ++ [n % b] := by
  have hpos : 0 < n / b := Nat.div_pos hn (by omega)
  rw [numeral, numeral, if_neg (by omega), if_neg (by omega), Nat.digits_def' hb (by omega),
    List.reverse_cons]

theorem numeral_ne_nil (b n : Nat) : numeral b n ≠ [] := by
  unfold numeral
  split
  next => simp
  next h => simpa using Nat.digits_ne_nil_iff_ne_zero.mpr h

theorem length_numeral_le_iff (hb : 1 < b) {k : Nat} (hk : 0 < k) :
    (numeral b n).length ≤ k ↔ n < b ^ k := by
  unfold numeral
  split
  next h =>
    rw [h, List.length_singleton]
    exact iff_of_true hk (Nat.pow_pos (by omega))
  next => rw [List.length_reverse, Nat.digits_length_le_iff hb]

theorem numeral_spec (hb : 1 < b) (n : Nat) : Numeral b (numeral b n) n where
  nonempty := numeral_ne_nil b n
  below d hd := by
    unfold numeral at hd
    split at hd
    next =>
      rw [List.mem_singleton.mp hd]
      omega
    next => exact Nat.digits_lt_base hb (List.mem_reverse.mp hd)
  leading h := by
    unfold numeral at h ⊢
    split at h
    next hn => rw [if_pos hn]
    next hn =>
      have hne : Nat.digits b n ≠ [] := Nat.digits_ne_nil_iff_ne_zero.mpr hn
      rw [List.head?_reverse, List.getLast?_eq_some_getLast hne] at h
      exact (Nat.getLast_digit_ne_zero b hn (Option.some.inj h)).elim
  value := by
    unfold numeral
    split
    next h => simp [h]
    next => rw [List.reverse_reverse, Nat.ofDigits_digits]

/-- A number has one numeral. -/
theorem Numeral.eq (hb : 1 < b) (h : Numeral b ds n) : ds = numeral b n := by
  have hvalue := h.value
  by_cases hzero : ds.head? = some 0
  · have hds := h.leading hzero
    subst hds
    obtain rfl : n = 0 := by simpa using hvalue.symm
    rfl
  · have hdigits : Nat.digits b n = ds.reverse := by
      rw [← hvalue]
      apply Nat.digits_ofDigits b hb
      · intro d hd
        exact h.below d (List.mem_reverse.mp hd)
      · intro hne hlast
        apply hzero
        rw [← hlast, ← List.getLast?_reverse, List.getLast?_eq_some_getLast hne]
    have hn : n ≠ 0 := by
      apply Nat.digits_ne_nil_iff_ne_zero.mp
      rw [hdigits]
      simpa using h.nonempty
    rw [numeral, if_neg hn, hdigits, List.reverse_reverse]

/-! ## With zeros in front -/

/-- The numeral with at least `k` digits. -/
def padded (k b n : Nat) : List Nat :=
  List.replicate (k - (numeral b n).length) 0 ++ numeral b n

theorem padded_below (hb : 1 < b) (k n : Nat) : ∀ d ∈ padded k b n, d < b := by
  intro d hd
  rw [padded, List.mem_append] at hd
  rcases hd with hd | hd
  · rw [List.eq_of_mem_replicate hd]
    omega
  · exact (numeral_spec hb n).below d hd

theorem ofDigits_padded (hb : 1 < b) (k n : Nat) : Nat.ofDigits b (padded k b n).reverse = n := by
  rw [padded, List.reverse_append, List.reverse_replicate, Nat.ofDigits_append_replicate_zero,
    (numeral_spec hb n).value]

theorem length_padded (hb : 1 < b) {k : Nat} (hk : 0 < k) (hn : n < b ^ k) :
    (padded k b n).length = k := by
  have hle := (length_numeral_le_iff hb hk).mpr hn
  rw [padded, List.length_append, List.length_replicate]
  omega

end CompOrg.Positional
