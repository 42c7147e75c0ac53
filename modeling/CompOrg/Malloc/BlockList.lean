import CompOrg.Lib.Segments
import CompOrg.Malloc.Allocator
import Mathlib.Data.List.Chain
import Mathlib.Tactic.Common

/-! # Lists of blocks and their maximal merge

What the tags in the heap describe: a list of blocks, each a size and an
allocated bit. A block carries the size discipline of the allocator, so a list
of blocks never holds a malformed one. `coalesceAll` merges every run of
neighbouring free blocks, without reference to the order in which they were
freed; `AllocAt` is the set of allocated blocks, which merging does not change.
-/

namespace CompOrg.Malloc

open Segments

structure Block where
  size : Nat
  alloc : Bool
  aligned : size % 8 = 0
  minimum : 16 ≤ size
  deriving DecidableEq

namespace Block

def tag (b : Block) : Nat := pack b.size (if b.alloc then 1 else 0)

def freed (b : Block) : Block := { b with alloc := false }

def taken (b : Block) : Block := { b with alloc := true }

/-- One free block over the extents of two neighbours. -/
def merge (b c : Block) : Block where
  size := b.size + c.size
  alloc := false
  aligned := by
    have := b.aligned
    have := c.aligned
    omega
  minimum := by
    have := b.minimum
    omega

/-- What is left of `b` behind a front part `w`. -/
def rest (w b : Block) (h : w.size + 16 ≤ b.size) : Block where
  size := b.size - w.size
  alloc := false
  aligned := by
    have := b.aligned
    have := w.aligned
    omega
  minimum := by omega

/-- Front part `w` of a block and the rest as a free block, when the rest is
large enough to be one; otherwise the whole block is taken. -/
def split (w b : Block) : List Block :=
  if h : w.size + 16 ≤ b.size then [w.taken, w.rest b h] else [b.taken]

@[simp] theorem freed_size (b : Block) : b.freed.size = b.size := rfl
@[simp] theorem freed_alloc (b : Block) : b.freed.alloc = false := rfl
@[simp] theorem taken_size (b : Block) : b.taken.size = b.size := rfl
@[simp] theorem taken_alloc (b : Block) : b.taken.alloc = true := rfl
@[simp] theorem merge_size (b c : Block) : (b.merge c).size = b.size + c.size := rfl
@[simp] theorem merge_alloc (b c : Block) : (b.merge c).alloc = false := rfl

@[simp] theorem rest_size (w b : Block) (h : w.size + 16 ≤ b.size) :
    (w.rest b h).size = b.size - w.size := rfl

@[simp] theorem rest_alloc (w b : Block) (h : w.size + 16 ≤ b.size) :
    (w.rest b h).alloc = false := rfl

theorem size_pos (b : Block) : 0 < b.size := by
  have := b.minimum
  omega

theorem ext_size_alloc {b c : Block} (hs : b.size = c.size) (ha : b.alloc = c.alloc) : b = c := by
  cases b
  cases c
  simp_all

theorem merge_merge (a b c : Block) : (a.merge b).merge c = a.merge (b.merge c) :=
  ext_size_alloc (by simp [Nat.add_assoc]) rfl

end Block

/-- Bytes that a list of blocks covers. -/
def span (bs : List Block) : Nat := extent Block.size bs

@[simp] theorem extent_size (bs : List Block) : extent Block.size bs = span bs := rfl

@[simp] theorem span_nil : span [] = 0 := rfl

@[simp] theorem span_cons (b : Block) (bs : List Block) : span (b :: bs) = b.size + span bs :=
  extent_cons Block.size b bs

@[simp] theorem span_append (xs ys : List Block) : span (xs ++ ys) = span xs + span ys :=
  extent_append Block.size xs ys

theorem span_split (w b : Block) : span (w.split b) = b.size := by
  unfold Block.split
  split
  · simp only [span_cons, span_nil, Block.taken_size, Block.rest_size]
    omega
  · simp

theorem startsAt_in_span {base p : Nat} {b : Block} {bs : List Block}
    (h : StartsAt Block.size base bs p b) :
    base ≤ p ∧ 16 ≤ b.size ∧ p + b.size ≤ base + span bs :=
  ⟨h.bounds.1, b.minimum, h.bounds.2⟩

/-! ## Merging -/

def Separated (bs : List Block) : Prop := bs.IsChain fun b c => b.alloc = true ∨ c.alloc = true

def mergeCons (b : Block) : List Block → List Block
  | [] => [b]
  | c :: cs => if b.alloc = false ∧ c.alloc = false then b.merge c :: cs else b :: c :: cs

def coalesceAll (bs : List Block) : List Block := bs.foldr mergeCons []

@[simp] theorem separated_nil : Separated [] := List.IsChain.nil

@[simp] theorem separated_singleton (b : Block) : Separated [b] := List.IsChain.singleton b

theorem separated_cons_cons {b c : Block} {bs : List Block} :
    Separated (b :: c :: bs) ↔ (b.alloc = true ∨ c.alloc = true) ∧ Separated (c :: bs) :=
  List.isChain_cons_cons

theorem Separated.tail {b : Block} {bs : List Block} (h : Separated (b :: bs)) : Separated bs :=
  List.IsChain.of_cons h

theorem separated_append_cons_cons {b c : Block} {xs ys : List Block} :
    Separated (xs ++ b :: c :: ys) ↔
      Separated (xs ++ [b]) ∧ (b.alloc = true ∨ c.alloc = true) ∧ Separated (c :: ys) :=
  List.isChain_append_cons_cons

theorem separated_split {b : Block} {xs ys : List Block} :
    Separated (xs ++ b :: ys) ↔ Separated (xs ++ [b]) ∧ Separated (b :: ys) :=
  List.isChain_split

/-- Separation next to a block depends only on its allocated bit. -/
theorem separated_cons_congr {b c : Block} {bs : List Block} (h : b.alloc = c.alloc) :
    Separated (b :: bs) ↔ Separated (c :: bs) := by
  cases bs with
  | nil => simp
  | cons d ds => rw [separated_cons_cons, separated_cons_cons, h]

theorem separated_concat_congr {b c : Block} {bs : List Block} (h : b.alloc = c.alloc) :
    Separated (bs ++ [b]) ↔ Separated (bs ++ [c]) := by
  simp only [Separated, List.isChain_append, List.IsChain.singleton, true_and]
  simp [h]

/-- Taking a block never puts two free blocks next to each other. -/
theorem separated_cons_of_alloc {b : Block} {bs : List Block} (hb : b.alloc = true)
    (h : Separated bs) : Separated (b :: bs) := by
  cases bs with
  | nil => simp
  | cons c cs => exact separated_cons_cons.mpr ⟨Or.inl hb, h⟩

theorem separated_concat_of_alloc {b : Block} {bs : List Block} (hb : b.alloc = true)
    (h : Separated bs) : Separated (bs ++ [b]) := by
  rw [Separated, List.isChain_append]
  refine ⟨h, List.IsChain.singleton b, ?_⟩
  intro x _ y hy
  simp only [List.head?_cons, Option.mem_some_iff] at hy
  exact Or.inr (hy ▸ hb)

theorem span_mergeCons (b : Block) (bs : List Block) :
    span (mergeCons b bs) = b.size + span bs := by
  cases bs with
  | nil => rfl
  | cons c cs =>
      rw [mergeCons]
      split <;> simp [Nat.add_assoc]

theorem span_coalesceAll (bs : List Block) : span (coalesceAll bs) = span bs := by
  induction bs with
  | nil => rfl
  | cons b bs ih =>
      rw [coalesceAll, List.foldr_cons, span_mergeCons, ← coalesceAll, ih, span_cons]

theorem separated_mergeCons {b : Block} {bs : List Block} (h : Separated bs) :
    Separated (mergeCons b bs) := by
  cases bs with
  | nil => simp [mergeCons]
  | cons c cs =>
      rw [mergeCons]
      split
      next hfree => exact (separated_cons_congr hfree.2.symm).mpr h
      next hne => exact separated_cons_cons.mpr ⟨by simpa [or_iff_not_imp_left] using hne, h⟩

theorem separated_coalesceAll (bs : List Block) : Separated (coalesceAll bs) := by
  induction bs with
  | nil => exact separated_nil
  | cons b bs ih => exact separated_mergeCons ih

theorem mergeCons_of_separated {b : Block} {bs : List Block} (h : Separated (b :: bs)) :
    mergeCons b bs = b :: bs := by
  cases bs with
  | nil => rfl
  | cons c cs =>
      rw [mergeCons, if_neg]
      rintro ⟨hb, hc⟩
      rcases (separated_cons_cons.mp h).1 with h' | h' <;> simp_all

theorem foldr_mergeCons_of_separated {xs ys : List Block} (h : Separated (xs ++ ys)) :
    xs.foldr mergeCons ys = xs ++ ys := by
  induction xs with
  | nil => rfl
  | cons x xs ih =>
      rw [List.foldr_cons, ih h.tail]
      exact mergeCons_of_separated h

theorem coalesceAll_of_separated {bs : List Block} (h : Separated bs) : coalesceAll bs = bs := by
  have := @foldr_mergeCons_of_separated bs [] (by simpa using h)
  simpa [coalesceAll] using this

theorem coalesceAll_append (xs ys : List Block) :
    coalesceAll (xs ++ ys) = xs.foldr mergeCons (coalesceAll ys) := by
  simp [coalesceAll, List.foldr_append]

/-! ## The allocated blocks -/

/-- An allocated block of `n` bytes starts at `p`. -/
def AllocAt (base : Nat) (bs : List Block) (p n : Nat) : Prop :=
  ∃ b, StartsAt Block.size base bs p b ∧ b.alloc = true ∧ b.size = n

variable {base p n : Nat} {b c : Block} {bs xs ys : List Block}

@[simp] theorem not_allocAt_nil : ¬ AllocAt base [] p n := fun ⟨_, h, _⟩ => h

theorem allocAt_cons :
    AllocAt base (b :: bs) p n ↔
      (p = base ∧ b.alloc = true ∧ b.size = n) ∨ AllocAt (base + b.size) bs p n := by
  constructor
  · rintro ⟨c, h | h, ha, hn⟩
    · exact Or.inl ⟨h.1, h.2 ▸ ha, h.2 ▸ hn⟩
    · exact Or.inr ⟨c, h, ha, hn⟩
  · rintro (⟨hp, ha, hn⟩ | ⟨c, h, ha, hn⟩)
    · exact ⟨b, Or.inl ⟨hp, rfl⟩, ha, hn⟩
    · exact ⟨c, Or.inr h, ha, hn⟩

theorem allocAt_append :
    AllocAt base (xs ++ ys) p n ↔ AllocAt base xs p n ∨ AllocAt (base + span xs) ys p n := by
  simp only [AllocAt, startsAt_append, or_and_right, exists_or, extent_size]

theorem allocAt_mergeCons : AllocAt base (mergeCons b bs) p n ↔ AllocAt base (b :: bs) p n := by
  cases bs with
  | nil => rfl
  | cons c cs =>
      rw [mergeCons]
      split
      next h => simp [allocAt_cons, h.1, h.2, Nat.add_assoc]
      next => rfl

theorem allocAt_coalesceAll : AllocAt base (coalesceAll bs) p n ↔ AllocAt base bs p n := by
  induction bs generalizing base with
  | nil => rfl
  | cons b bs ih =>
      rw [coalesceAll, List.foldr_cons, ← coalesceAll, allocAt_mergeCons, allocAt_cons,
        allocAt_cons, ih]

/-- Two allocated blocks at different positions do not overlap. -/
theorem AllocAt.disjoint {q k : Nat} (h : AllocAt base bs p n) (h' : AllocAt base bs q k)
    (hne : p ≠ q) : p + n ≤ q ∨ q + k ≤ p := by
  obtain ⟨b, hb, _, rfl⟩ := h
  obtain ⟨c, hc, _, rfl⟩ := h'
  rcases Nat.lt_or_gt_of_ne hne with hlt | hlt
  · exact Or.inl (hb.end_le_of_lt hc hlt)
  · exact Or.inr (hc.end_le_of_lt hb hlt)

theorem AllocAt.bounds (h : AllocAt base bs p n) : base ≤ p ∧ p + n ≤ base + span bs := by
  obtain ⟨b, hb, _, rfl⟩ := h
  exact hb.bounds

theorem AllocAt.size_eq {k : Nat} (h : AllocAt base bs p n) (h' : AllocAt base bs p k) :
    n = k := by
  obtain ⟨b, hb, _, rfl⟩ := h
  obtain ⟨c, hc, _, rfl⟩ := h'
  rw [hb.unique (fun d _ => d.size_pos) hc]

theorem AllocAt.minimum (h : AllocAt base bs p n) : 16 ≤ n ∧ n % 8 = 0 := by
  obtain ⟨b, _, _, rfl⟩ := h
  exact ⟨b.minimum, b.aligned⟩

/-- Segments of `bs` start at the base plus multiples of eight. -/
theorem startsAt_aligned (h : StartsAt Block.size base bs p b) (hbase : base % 8 = 0) :
    p % 8 = 0 := by
  induction bs generalizing base with
  | nil => exact h.elim
  | cons c cs ih =>
      rcases h with ⟨rfl, _⟩ | h
      · exact hbase
      · have := c.aligned
        exact ih h (by omega)

/-- Freeing the block at one position takes exactly that position out. -/
theorem allocAt_freed_middle {pre post : List Block} :
    AllocAt base (pre ++ b.freed :: post) p n ↔
      AllocAt base (pre ++ b :: post) p n ∧ p ≠ base + span pre := by
  simp only [allocAt_append, allocAt_cons, Block.freed_alloc, Block.freed_size]
  constructor
  · rintro (h | ⟨_, h, _⟩ | h)
    · refine ⟨Or.inl h, ?_⟩
      have := h.bounds.2
      have := h.minimum.1
      omega
    · simp at h
    · refine ⟨Or.inr (Or.inr h), ?_⟩
      have := h.bounds.1
      have := b.minimum
      omega
  · rintro ⟨h | ⟨hp, _⟩ | h, hne⟩
    · exact Or.inl h
    · exact (hne hp).elim
    · exact Or.inr (Or.inr h)

/-- Placing `w` into a free block adds exactly the placed block. -/
theorem allocAt_split_middle {w : Block} {pre post : List Block} (hfree : b.alloc = false) :
    AllocAt base (pre ++ w.split b ++ post) p n ↔
      AllocAt base (pre ++ b :: post) p n ∨
        (p = base + span pre ∧ n = if w.size + 16 ≤ b.size then w.size else b.size) := by
  unfold Block.split
  split
  next h =>
    have hsum : base + (span pre + (w.size + (b.size - w.size))) = base + span pre + b.size := by
      omega
    simp only [allocAt_append, allocAt_cons, hfree, Block.taken_alloc, Block.taken_size,
      Block.rest_alloc, Block.rest_size, not_allocAt_nil, span_append, span_cons, span_nil,
      Nat.add_zero, hsum]
    simp
    tauto
  next h =>
    simp only [allocAt_append, allocAt_cons, hfree, Block.taken_alloc, Block.taken_size,
      not_allocAt_nil, span_append, span_cons, span_nil, Nat.add_zero, ← Nat.add_assoc]
    simp
    tauto

end CompOrg.Malloc
