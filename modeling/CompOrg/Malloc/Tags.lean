import CompOrg.Malloc.Allocator

/-! # Tag words

`PACK` puts the allocated bit into the three bits that an 8-byte size leaves
free, and `GET_SIZE` masks them out again.
-/

namespace CompOrg.Malloc

open Memory

theorem pack_eq_add {size alloc : Nat} (hs : size % 8 = 0) (ha : alloc < 8) :
    pack size alloc = size + alloc := by
  have h : size = 2 ^ 3 * (size / 8) := by omega
  rw [pack, h, Nat.two_pow_add_eq_or_of_lt (by omega)]

/-- `& ~0x7` on a 32-bit word rounds down to a multiple of eight. -/
theorem mask_size {w : Nat} (h : w < 2 ^ 32) : w &&& 0xFFFFFFF8 = w / 8 * 8 := by
  have hm : (0xFFFFFFF8 : Nat) = (2 ^ 29 - 1) * 2 ^ 3 := by decide
  have hhigh : ∀ i, 32 ≤ i → w.testBit i = false := fun i hi =>
    Nat.testBit_lt_two_pow (lt_of_lt_of_le h (Nat.pow_le_pow_right (by decide) hi))
  apply Nat.eq_of_testBit_eq
  intro i
  rw [hm, Nat.testBit_and, Nat.testBit_mul_two_pow, show w / 8 * 8 = w / 2 ^ 3 * 2 ^ 3 by omega,
    Nat.testBit_mul_two_pow, Nat.testBit_div_two_pow, Nat.testBit_two_pow_sub_one]
  by_cases hi : 3 ≤ i
  · by_cases hlt : i < 32
    · simp [hi, show i - 3 < 29 by omega]
    · simp [hi, hhigh i (by omega)]
  · simp [hi]

theorem get_put_same {m : Memory} {p v : Nat} (hv : v < 2 ^ 32) : get (put m p v) p = v := by
  rw [get, put, readWord_writeWord_same, Nat.mod_eq_of_lt hv]

theorem get_put_of_disjoint {m : Memory} {p q v : Nat} (h : q + 4 ≤ p ∨ p + 4 ≤ q) :
    get (put m p v) q = get m q := readWord_writeWord_of_disjoint h

theorem getSize_put_of_disjoint {m : Memory} {p q v : Nat} (h : q + 4 ≤ p ∨ p + 4 ≤ q) :
    getSize (put m p v) q = getSize m q := by
  rw [getSize, getSize, get_put_of_disjoint h]

/-- The three block macros read one word each, so a write elsewhere does not
change what they compute. -/
theorem prevBlkp_put {m : Memory} {bp a v : Nat} (h : bp - 8 + 4 ≤ a ∨ a + 4 ≤ bp - 8) :
    prevBlkp (put m a v) bp = prevBlkp m bp := by
  rw [prevBlkp, prevBlkp, DSIZE, getSize_put_of_disjoint h]

theorem nextBlkp_put {m : Memory} {bp a v : Nat} (h : bp - 4 + 4 ≤ a ∨ a + 4 ≤ bp - 4) :
    nextBlkp (put m a v) bp = nextBlkp m bp := by
  rw [nextBlkp, nextBlkp, WSIZE, getSize_put_of_disjoint h]

theorem ftrp_put {m : Memory} {bp a v : Nat} (h : bp - 4 + 4 ≤ a ∨ a + 4 ≤ bp - 4) :
    ftrp (put m a v) bp = ftrp m bp := by
  rw [ftrp, ftrp, hdrp, WSIZE, getSize_put_of_disjoint h]

theorem sameOutside_put {m : Memory} {p v lo hi : Nat} (hlo : lo ≤ p) (hhi : p + 4 ≤ hi) :
    SameOutside m (put m p v) lo hi := (sameOutside_writeWord m p v).mono hlo hhi

section Packed

variable {m : Memory} {p size alloc : Nat}

theorem pack_lt (hs : size % 8 = 0) (hlt : size < 2 ^ 32) (ha : alloc < 8) :
    pack size alloc < 2 ^ 32 := by
  rw [pack_eq_add hs ha]
  omega

theorem getSize_of_get (h : get m p = pack size alloc) (hs : size % 8 = 0)
    (hlt : size < 2 ^ 32) (ha : alloc < 8) : getSize m p = size := by
  rw [getSize, h, mask_size (pack_lt hs hlt ha), pack_eq_add hs ha]
  omega

theorem getAlloc_of_get (h : get m p = pack size alloc) (hs : size % 8 = 0) (ha : alloc < 2) :
    getAlloc m p = alloc := by
  rw [getAlloc, h, pack_eq_add hs (by omega), Nat.and_one_is_mod]
  omega

end Packed

end CompOrg.Malloc
