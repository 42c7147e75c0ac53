import Mathlib.Data.List.Basic
import Mathlib.Tactic.Ring

/-! # Words as two's complement numbers

Bitwise tricks read the sign out of a word, isolate its lowest set bit, or put a mask
together. Each of them is stated bit by bit, for words of any width.
-/

namespace CompOrg.TwosComplement

variable {w : Nat} {x : BitVec w}

/-! ## The sign -/

/-- The sign bit in every position. -/
theorem sshiftRight_sign (x : BitVec w) :
    x.sshiftRight (w - 1) = if x.msb then BitVec.allOnes w else 0#w := by
  apply BitVec.eq_of_getLsbD_eq
  intro i hi
  have hbit : (if w - 1 + i < w then x.getLsbD (w - 1 + i) else x.msb) = x.msb := by
    split
    · rw [BitVec.msb_eq_getLsbD_last, show w - 1 + i = w - 1 by omega]
    · rfl
  rw [BitVec.getLsbD_sshiftRight, decide_eq_false (by omega : ¬ w ≤ i), Bool.not_false,
    Bool.true_and, hbit]
  cases x.msb with
  | true => simp [hi]
  | false => simp

/-- Of a number and its negation one is negative, unless the number is zero. -/
theorem msb_or_neg (x : BitVec w) : (x ||| -x).msb = decide (x ≠ 0#w) := by
  rw [BitVec.msb_or, BitVec.msb_neg]
  by_cases hzero : x = 0#w
  · simp [hzero]
  · by_cases hmin : x = BitVec.intMin w
    · have hwidth : 0 < w := by
        rcases Nat.eq_zero_or_pos w with rfl | hpos
        · exact (hzero (BitVec.of_length_zero)).elim
        · exact hpos
      simp [hmin, BitVec.msb_intMin, hwidth, hmin ▸ hzero]
    · rw [bne_iff_ne.mpr hzero, bne_iff_ne.mpr hmin, decide_eq_true hzero]
      cases x.msb <;> rfl

/-! ## Counting up and down -/

theorem toInt_add_ofNat {k : Nat} (h : 2 * (x.toInt + k) < 2 ^ w) :
    (x + BitVec.ofNat w k).toInt = x.toInt + k := by
  have hge := BitVec.le_two_mul_toInt (x := x)
  rw [BitVec.toInt_add, BitVec.toInt_ofNat', Int.add_bmod_bmod]
  apply Int.bmod_eq_of_le_mul_two
  · push_cast
    omega
  · push_cast
    omega

theorem toInt_sub_ofNat {k : Nat} (h : -2 ^ w ≤ 2 * (x.toInt - k)) :
    (x - BitVec.ofNat w k).toInt = x.toInt - k := by
  have hlt := BitVec.two_mul_toInt_lt (x := x)
  rw [BitVec.toInt_sub, BitVec.toInt_ofNat', Int.sub_bmod_bmod]
  apply Int.bmod_eq_of_le_mul_two
  · push_cast
    omega
  · push_cast
    omega

/-! ## The lowest set bit -/

structure IsLowest (x : BitVec w) (i : Nat) : Prop where
  set : x.getLsbD i = true
  below : ∀ j < i, x.getLsbD j = false

theorem IsLowest.lt {i : Nat} (h : IsLowest x i) : i < w := BitVec.lt_of_getLsbD h.set

/-- The negation agrees with the number up to the lowest set bit, and nowhere above. -/
theorem IsLowest.and_neg {i : Nat} (h : IsLowest x i) : x &&& -x = BitVec.twoPow w i := by
  apply BitVec.eq_of_getLsbD_eq
  intro j hj
  rw [BitVec.getLsbD_and, BitVec.getLsbD_neg, BitVec.getLsbD_twoPow, decide_eq_true h.lt,
    decide_eq_true hj, Bool.true_and, Bool.true_and]
  rcases Nat.lt_trichotomy j i with hlt | rfl | hgt
  · rw [h.below j hlt, Bool.false_and, decide_eq_false (by omega)]
  · have hnone : ¬ ∃ k < j, x.getLsbD k = true := fun ⟨k, hk, hset⟩ =>
      Bool.false_ne_true ((h.below k hk).symm.trans hset)
    rw [h.set, decide_eq_false hnone, decide_eq_true rfl]
    rfl
  · rw [decide_eq_true ⟨i, hgt, h.set⟩, decide_eq_false (by omega)]
    cases x.getLsbD j <;> rfl

theorem exists_isLowest (hx : x ≠ 0#w) : ∃ i, IsLowest x i := by
  have hset : ∃ i, x.getLsbD i = true := by
    by_contra hnone
    apply hx
    apply BitVec.eq_of_getLsbD_eq
    intro i _
    rw [BitVec.getLsbD_zero]
    exact Bool.eq_false_iff.mpr fun h => hnone ⟨i, h⟩
  exact ⟨Nat.find hset, Nat.find_spec hset, fun j hj =>
    Bool.eq_false_iff.mpr (Nat.find_min hset hj)⟩

/-! ## Masks -/

/-- The bits at the positions are set one after the other. -/
def setBits (w : Nat) (is : List Nat) : BitVec w :=
  is.foldl (fun result i => result ||| 1#w <<< i) 0#w

theorem getLsbD_foldl_or {is : List Nat} {j : Nat} (hj : j < w) (result : BitVec w) :
    (is.foldl (fun result i => result ||| 1#w <<< i) result).getLsbD j =
      (result.getLsbD j || decide (j ∈ is)) := by
  induction is generalizing result with
  | nil => simp
  | cons i is ih =>
      have hone : (1#w <<< i).getLsbD j = decide (j = i) := by
        rw [show 1#w <<< i = BitVec.twoPow w i from rfl, BitVec.getLsbD_twoPow]
        by_cases heq : j = i
        · simp [← heq, hj]
        · simp [heq, Ne.symm heq]
      rw [List.foldl_cons, ih, BitVec.getLsbD_or, hone, Bool.or_assoc]
      simp [List.mem_cons]

theorem getLsbD_setBits {is : List Nat} {j : Nat} (hj : j < w) :
    (setBits w is).getLsbD j = decide (j ∈ is) := by
  rw [setBits, getLsbD_foldl_or hj, BitVec.getLsbD_zero, Bool.false_or]

theorem and_setBits_eq_iff {is : List Nat} (his : ∀ i ∈ is, i < w) :
    x &&& setBits w is = setBits w is ↔ ∀ i ∈ is, x.getLsbD i = true := by
  constructor
  · intro heq i hi
    have hbit := congrArg (fun y => y.getLsbD i) heq
    simpa [BitVec.getLsbD_and, getLsbD_setBits (his i hi), hi] using hbit
  · intro hall
    apply BitVec.eq_of_getLsbD_eq
    intro j hj
    rw [BitVec.getLsbD_and, getLsbD_setBits hj]
    by_cases hmem : j ∈ is
    · rw [hall j hmem, Bool.true_and]
    · rw [decide_eq_false hmem, Bool.and_false]

/-- A bit is tested with a word that has no other. -/
theorem and_one_shiftLeft_eq_zero_iff {i : Nat} (hi : i < w) :
    x &&& 1#w <<< i = 0#w ↔ x.getLsbD i = false := by
  rw [show 1#w <<< i = BitVec.twoPow w i from rfl, BitVec.and_twoPow]
  constructor
  · intro h
    by_contra hset
    rw [if_pos (Bool.not_eq_false _ ▸ hset)] at h
    have hbit := congrArg (fun y => y.getLsbD i) h
    simp [hi] at hbit
  · intro h
    rw [h]
    rfl

end CompOrg.TwosComplement
