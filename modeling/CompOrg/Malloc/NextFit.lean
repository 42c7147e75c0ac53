import CompOrg.Malloc.BlockList

/-! # Next fit on a list of blocks

What the allocator is for, without addresses and tags: a list of blocks tiles the
heap, and a cursor rests at the prologue or at the start of a block. Positions are
offsets from the heap start; the first block starts at offset 16, behind the
padding word and the prologue, whose payload is at offset 8.
-/

namespace CompOrg.Malloc

open Segments

/-- Offset of the prologue payload, where `heap_listp` points. -/
def prologueOffset : Nat := 8

/-- Offset of the first payload. -/
def firstOffset : Nat := 16

/-- The cursor may rest at the prologue or at a block, never inside one. -/
def OnBoundary (bs : List Block) (c : Nat) : Prop :=
  c = prologueOffset ∨ ∃ b, StartsAt Block.size firstOffset bs c b

/-- Least boundary of `bs` that is not after `c` with nothing in between. -/
def settle (bs : List Block) (c : Nat) : Nat :=
  if c < firstOffset then c else startOf Block.size firstOffset bs c

/-- The least multiple of eight with room for `size` bytes and two tags, and at
least sixteen. -/
def roundUp (size : Nat) : Nat := if size ≤ 8 then 16 else 8 * ((size + 15) / 8)

theorem roundUp_aligned (size : Nat) : roundUp size % 8 = 0 := by
  unfold roundUp
  split <;> omega

theorem roundUp_minimum (size : Nat) : 16 ≤ roundUp size := by
  unfold roundUp
  split <;> omega

theorem add_tags_le_roundUp (size : Nat) : size + 8 ≤ roundUp size := by
  unfold roundUp
  split <;> omega

theorem roundUp_lt {size : Nat} (h : size + 15 < 2 ^ 32) : roundUp size < 2 ^ 32 := by
  unfold roundUp
  split <;> omega

theorem adjustedSize_eq_roundUp {size : Nat} (h : size + 15 < 2 ^ 32) :
    adjustedSize size = roundUp size := by
  unfold adjustedSize roundUp DSIZE
  split
  next => rfl
  next =>
    rw [show size + 8 + (8 - 1) = size + 15 by omega, sizeT_of_lt h, sizeT_of_lt (by omega)]

namespace Block

/-- The block a request asks for. -/
def request (size : Nat) : Block := ⟨roundUp size, true, roundUp_aligned size, roundUp_minimum size⟩

/-- The free block that `extend_heap` adds for a request. -/
def chunk (size : Nat) : Block where
  size := max (roundUp size) CHUNKSIZE
  alloc := false
  aligned := by
    have := roundUp_aligned size
    unfold CHUNKSIZE
    omega
  minimum := by
    have := roundUp_minimum size
    omega

/-- The free block that `mm_init` starts with. -/
def first : Block := ⟨CHUNKSIZE, false, by decide, by decide⟩

@[simp] theorem request_size (size : Nat) : (request size).size = roundUp size := rfl
@[simp] theorem chunk_size (size : Nat) : (chunk size).size = max (roundUp size) CHUNKSIZE := rfl
@[simp] theorem chunk_alloc (size : Nat) : (chunk size).alloc = false := rfl

end Block

structure NextFit where
  blocks : List Block
  cursor : Nat

namespace NextFit

structure Valid (a : NextFit) : Prop where
  separated : Separated a.blocks
  cursor : OnBoundary a.blocks a.cursor

/-! ## Operations -/

/-- First free block of at least `n` bytes among those at offsets in `among`. -/
def firstFit (n : Nat) (among : Nat → Bool) : Nat → List Block → Option Nat
  | _, [] => none
  | o, b :: bs =>
      if among o = true ∧ b.alloc = false ∧ n ≤ b.size then some o
      else firstFit n among (o + b.size) bs

/-- From the cursor to the end, then from the start up to the cursor. -/
def search (a : NextFit) (n : Nat) : Option Nat :=
  (firstFit n (fun o => decide (a.cursor ≤ o)) firstOffset a.blocks).or
    (firstFit n (fun o => decide (o < a.cursor)) firstOffset a.blocks)

def place (a : NextFit) (w : Block) (o : Nat) : NextFit :=
  { a with blocks := replaceAt Block.size w.split o firstOffset a.blocks }

def grow (a : NextFit) (c : Block) : NextFit :=
  let bs := coalesceAll (a.blocks ++ [c])
  ⟨bs, settle bs a.cursor⟩

def free (a : NextFit) (o : Nat) : NextFit :=
  let bs := coalesceAll (replaceAt Block.size (fun b => [b.freed]) o firstOffset a.blocks)
  ⟨bs, settle bs a.cursor⟩

/-- Offset of the break. -/
def brk (a : NextFit) : Nat := firstOffset + span a.blocks

def malloc (a : NextFit) (size : Nat) : NextFit × Option Nat :=
  if size = 0 then (a, none)
  else
    match a.search (roundUp size) with
    | some o => ({ a.place (Block.request size) o with cursor := o }, some o)
    | none =>
        if a.brk + (Block.chunk size).size ≤ MAX_HEAP then
          let g := a.grow (Block.chunk size)
          let o := startOf Block.size firstOffset g.blocks a.brk
          (g.place (Block.request size) o, some o)
        else (a, none)

def realloc (a : NextFit) (o size : Nat) : NextFit × Option Nat :=
  if size = 0 then (a.free o, none)
  else
    match a.malloc size with
    | (a, none) => (a, none)
    | (a, some p) => (a.free o, some p)

/-- One free block of `CHUNKSIZE` bytes, the cursor at the prologue. -/
def initial : NextFit := ⟨[Block.first], prologueOffset⟩

/-! ## Boundaries -/

theorem onBoundary_range {bs : List Block} {c : Nat} (h : OnBoundary bs c) :
    c = prologueOffset ∨ firstOffset ≤ c ∧ c < firstOffset + span bs := by
  rcases h with h | ⟨b, h⟩
  · exact Or.inl h
  · have := startsAt_in_span h
    exact Or.inr (by omega)

theorem settle_onBoundary {bs : List Block} {c : Nat}
    (h : c = prologueOffset ∨ firstOffset ≤ c ∧ c < firstOffset + span bs) :
    OnBoundary bs (settle bs c) := by
  rcases h with rfl | ⟨hlo, hhi⟩
  · exact Or.inl rfl
  · obtain ⟨b, hb, -, -⟩ := startOf_spec hlo hhi
    rw [settle, if_neg (by omega)]
    exact Or.inr ⟨b, hb⟩

theorem settle_of_onBoundary {bs : List Block} {c : Nat} (h : OnBoundary bs c) :
    settle bs c = c := by
  rcases h with rfl | ⟨b, h⟩
  · rfl
  · have := h.bounds.1
    have := b.size_pos
    rw [settle, if_neg (by omega), h.startOf_eq (Nat.le_refl c) (by omega)]

theorem settle_of_covered {bs : List Block} {b : Block} {c q : Nat}
    (h : StartsAt Block.size firstOffset bs q b) (hlo : q ≤ c) (hhi : c < q + b.size) :
    settle bs c = q := by
  have := h.bounds.1
  rw [settle, if_neg (by omega), h.startOf_eq hlo hhi]

/-! ## Search -/

theorem firstFit_some {n : Nat} {among : Nat → Bool} {base o : Nat} {bs : List Block}
    (h : firstFit n among base bs = some o) :
    ∃ b, StartsAt Block.size base bs o b ∧ b.alloc = false ∧ n ≤ b.size ∧ among o = true := by
  induction bs generalizing base with
  | nil => simp [firstFit] at h
  | cons b bs ih =>
      rw [firstFit] at h
      split at h
      next hfit =>
        cases h
        exact ⟨b, Or.inl ⟨rfl, rfl⟩, hfit.2.1, hfit.2.2, hfit.1⟩
      next =>
        obtain ⟨c, hc, hrest⟩ := ih h
        exact ⟨c, Or.inr hc, hrest⟩

theorem firstFit_append (n : Nat) (among : Nat → Bool) (base : Nat) (xs ys : List Block) :
    firstFit n among base (xs ++ ys) =
      (firstFit n among base xs).or (firstFit n among (base + span xs) ys) := by
  induction xs generalizing base with
  | nil => simp [firstFit]
  | cons x xs ih =>
      rw [List.cons_append, firstFit, firstFit, ih]
      split
      · rfl
      · simp [Nat.add_assoc]

theorem firstFit_of_all {n : Nat} (among : Nat → Bool) {base : Nat} (bs : List Block)
    (h : ∀ o b, StartsAt Block.size base bs o b → among o = true) :
    firstFit n among base bs = firstFit n (fun _ => true) base bs := by
  induction bs generalizing base with
  | nil => rfl
  | cons b bs ih =>
      rw [firstFit, firstFit, h base b (Or.inl ⟨rfl, rfl⟩), ih fun o c hc => h o c (Or.inr hc)]

theorem firstFit_of_none {n : Nat} (among : Nat → Bool) {base : Nat} (bs : List Block)
    (h : ∀ o b, StartsAt Block.size base bs o b → among o = false) :
    firstFit n among base bs = none := by
  induction bs generalizing base with
  | nil => rfl
  | cons b bs ih =>
      rw [firstFit, h base b (Or.inl ⟨rfl, rfl⟩), ih fun o c hc => h o c (Or.inr hc)]
      simp

/-- The two passes of a search, with the list cut at the cursor. -/
theorem search_of_cut {a : NextFit} {pre post : List Block} (hb : a.blocks = pre ++ post)
    (hc : a.cursor = firstOffset + span pre) (n : Nat) :
    a.search n = (firstFit n (fun _ => true) a.cursor post).or
      (firstFit n (fun _ => true) firstOffset pre) := by
  have hpre : ∀ o b, StartsAt Block.size firstOffset pre o b → o < a.cursor := by
    intro o b h
    have := startsAt_in_span h
    omega
  have hpost : ∀ o b, StartsAt Block.size (firstOffset + span pre) post o b → a.cursor ≤ o := by
    intro o b h
    have := startsAt_in_span h
    omega
  have hto : firstFit n (fun o => decide (a.cursor ≤ o)) firstOffset a.blocks =
      firstFit n (fun _ => true) a.cursor post := by
    rw [hb, firstFit_append, firstFit_of_none _ pre fun o b h => by simpa using hpre o b h,
      firstFit_of_all _ post fun o b h => by simpa using hpost o b h, ← hc, Option.none_or]
  have hfrom : firstFit n (fun o => decide (o < a.cursor)) firstOffset a.blocks =
      firstFit n (fun _ => true) firstOffset pre := by
    rw [hb, firstFit_append, firstFit_of_none _ post fun o b h => by simpa using hpost o b h,
      firstFit_of_all _ pre fun o b h => by simpa using hpre o b h, Option.or_none]
  rw [search, hto, hfrom]

/-- A search from the prologue is one pass over the whole list. -/
theorem search_of_prologue {a : NextFit} (hc : a.cursor = prologueOffset) (n : Nat) :
    a.search n = firstFit n (fun _ => true) firstOffset a.blocks := by
  have hall : ∀ o b, StartsAt Block.size firstOffset a.blocks o b → a.cursor ≤ o := by
    intro o b h
    rw [hc]
    exact Nat.le_trans (by decide) h.bounds.1
  rw [search, firstFit_of_all (fun o => decide (a.cursor ≤ o)) a.blocks
      fun o b h => by simpa using hall o b h,
    firstFit_of_none (fun o => decide (o < a.cursor)) a.blocks
      fun o b h => by simpa using hall o b h, Option.or_none]

theorem search_some {a : NextFit} {n o : Nat} (h : a.search n = some o) :
    ∃ b, StartsAt Block.size firstOffset a.blocks o b ∧ b.alloc = false ∧ n ≤ b.size := by
  rcases Option.or_eq_some_iff.mp h with h | ⟨-, h⟩
  · obtain ⟨b, hb, hfree, hn, -⟩ := firstFit_some h
    exact ⟨b, hb, hfree, hn⟩
  · obtain ⟨b, hb, hfree, hn, -⟩ := firstFit_some h
    exact ⟨b, hb, hfree, hn⟩

theorem firstFit_none {n : Nat} {among : Nat → Bool} {base o : Nat} {b : Block}
    {bs : List Block} (h : firstFit n among base bs = none)
    (hb : StartsAt Block.size base bs o b) (ho : among o = true) :
    ¬ (b.alloc = false ∧ n ≤ b.size) := by
  induction bs generalizing base with
  | nil => exact hb.elim
  | cons c cs ih =>
      rw [firstFit] at h
      split at h
      next => simp at h
      next hmiss =>
        rcases hb with ⟨rfl, rfl⟩ | hb
        · exact fun hfit => hmiss ⟨ho, hfit⟩
        · exact ih h hb

theorem search_none {a : NextFit} {n o : Nat} {b : Block} (h : a.search n = none)
    (hb : StartsAt Block.size firstOffset a.blocks o b) : ¬ (b.alloc = false ∧ n ≤ b.size) := by
  obtain ⟨hto, hfrom⟩ := Option.or_eq_none_iff.mp h
  by_cases ho : a.cursor ≤ o
  · exact firstFit_none hto hb (by simpa using ho)
  · exact firstFit_none hfrom hb (by simpa using ho)

end NextFit

end CompOrg.Malloc
