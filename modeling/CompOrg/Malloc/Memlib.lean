import CompOrg.Lib.ByteMemory

/-! # The memory system model under the allocator

`memlib.c` hands out one contiguous region through `mem_sbrk`. The state also
holds the two globals of `mm.c`, since both files are one program image. Addresses
do not wrap; `size_t` and `unsigned int` are 32 bits wide (the driver is built
with `-m32`) and their arithmetic is reduced explicitly.
-/

namespace CompOrg.Malloc

structure Heap where
  mem : Memory
  memStartBrk : Nat
  memBrk : Nat
  memMaxAddr : Nat
  heapListp : Nat
  nextFitPointer : Nat

/-- Reduce to `size_t`. -/
def sizeT (n : Nat) : Nat := n % 2 ^ 32

/-- Conversion of a `size_t` argument to the `int` parameter of `mem_sbrk`. -/
def toInt (n : Nat) : Int := if n < 2 ^ 31 then n else (n : Int) - 2 ^ 32

def MAX_HEAP : Nat := 20 * 2 ^ 20

/-- The region is `malloc`ed by `mem_init`; its contents are whatever was there. -/
def memInit (stale : Memory) (start : Nat) (listp nextFit : Nat) : Heap where
  mem := stale
  memStartBrk := start
  memBrk := start
  memMaxAddr := start + MAX_HEAP
  heapListp := listp
  nextFitPointer := nextFit

def memResetBrk (h : Heap) : Heap := { h with memBrk := h.memStartBrk }

/-- The result `none` is `(void *)-1`. -/
def memSbrk (h : Heap) (incr : Int) : Heap × Option Nat :=
  if incr < 0 ∨ (h.memBrk : Int) + incr > h.memMaxAddr then (h, none)
  else ({ h with memBrk := h.memBrk + incr.toNat }, some h.memBrk)

def memHeapLo (h : Heap) : Nat := h.memStartBrk

def memHeapHi (h : Heap) : Nat := h.memBrk - 1

def memHeapsize (h : Heap) : Nat := h.memBrk - h.memStartBrk

theorem sizeT_of_lt {n : Nat} (h : n < 2 ^ 32) : sizeT n = n := Nat.mod_eq_of_lt h

theorem toInt_of_lt {n : Nat} (h : n < 2 ^ 31) : toInt n = n := if_pos h

theorem toInt_neg_of_le {n : Nat} (h : 2 ^ 31 ≤ n) (h' : n < 2 ^ 32) : toInt n < 0 := by
  rw [toInt, if_neg (by omega)]
  omega

/-- A request that fits moves the break and returns the old one. -/
theorem memSbrk_of_fits {h : Heap} {n : Nat} (hn : n < 2 ^ 31)
    (hfit : h.memBrk + n ≤ h.memMaxAddr) :
    memSbrk h (toInt n) = ({ h with memBrk := h.memBrk + n }, some h.memBrk) := by
  rw [memSbrk, toInt_of_lt hn, if_neg (by omega), Int.toNat_natCast]

/-- A request that does not fit, also one that turns negative as an `int`,
changes nothing. -/
theorem memSbrk_of_not_fits {h : Heap} {n : Nat} (hn : n < 2 ^ 32)
    (hfit : h.memMaxAddr < h.memBrk + n) : memSbrk h (toInt n) = (h, none) := by
  by_cases hlt : n < 2 ^ 31
  · rw [memSbrk, toInt_of_lt hlt, if_pos (by omega)]
  · rw [memSbrk, if_pos (Or.inl (toInt_neg_of_le (by omega) hn))]

end CompOrg.Malloc
