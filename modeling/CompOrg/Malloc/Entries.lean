import CompOrg.Malloc.Safety

/-! # The block list that the macros read

Address, size and allocated bit of every block, in the order in which
`NEXT_BLKP` visits them from `heap_listp`. For a represented heap this list is
the prologue followed by the blocks of next fit, so a statement about it is a
statement about the words in memory.
-/

namespace CompOrg.Malloc

open Segments

structure Entry where
  addr : Nat
  size : Nat
  alloc : Nat
  deriving DecidableEq

/-- Blocks from `bp` on, up to the epilogue. -/
def entriesFrom (m : Memory) : Nat → Nat → List Entry
  | 0, _ => []
  | fuel + 1, bp =>
      if getSize m (hdrp bp) > 0 then
        ⟨bp, getSize m (hdrp bp), getAlloc m (hdrp bp)⟩ :: entriesFrom m fuel (nextBlkp m bp)
      else []

def entries (h : Heap) : List Entry := entriesFrom h.mem h.memBrk h.heapListp

namespace Entry

/-- The prologue block, behind the padding word at the heap start. -/
def prologue (start : Nat) : Entry := ⟨start + prologueOffset, 8, 1⟩

def Fits (asize : Nat) (e : Entry) : Prop := e.alloc = 0 ∧ asize ≤ e.size

instance (asize : Nat) (e : Entry) : Decidable (e.Fits asize) :=
  inferInstanceAs (Decidable (e.alloc = 0 ∧ asize ≤ e.size))

theorem not_fits_prologue (start asize : Nat) : ¬ (prologue start).Fits asize := by
  rintro ⟨h, -⟩
  simp [prologue] at h

end Entry

/-! ## Blocks at their addresses -/

def Block.entry (b : Block) (addr : Nat) : Entry := ⟨addr, b.size, if b.alloc then 1 else 0⟩

def view : Nat → List Block → List Entry
  | _, [] => []
  | p, b :: bs => b.entry p :: view (p + b.size) bs

@[simp] theorem Block.entry_addr (b : Block) (p : Nat) : (b.entry p).addr = p := rfl
@[simp] theorem Block.entry_size (b : Block) (p : Nat) : (b.entry p).size = b.size := rfl

theorem Block.entry_alloc_eq_zero (b : Block) (p : Nat) :
    (b.entry p).alloc = 0 ↔ b.alloc = false := by
  cases hb : b.alloc <;> simp [Block.entry, hb]

theorem Block.entry_fits {b : Block} {p n : Nat} :
    (b.entry p).Fits n ↔ b.alloc = false ∧ n ≤ b.size := by
  rw [Entry.Fits, Block.entry_alloc_eq_zero, Block.entry_size]

@[simp] theorem view_nil (p : Nat) : view p [] = [] := rfl

@[simp] theorem view_cons (p : Nat) (b : Block) (bs : List Block) :
    view p (b :: bs) = b.entry p :: view (p + b.size) bs := rfl

theorem view_append (p : Nat) (xs ys : List Block) :
    view p (xs ++ ys) = view p xs ++ view (p + span xs) ys := by
  induction xs generalizing p with
  | nil => simp
  | cons x xs ih => simp [ih, Nat.add_assoc]

theorem mem_view {start base : Nat} {e : Entry} {bs : List Block} :
    e ∈ view (start + base) bs ↔
      ∃ o b, StartsAt Block.size base bs o b ∧ e = b.entry (start + o) := by
  induction bs generalizing base with
  | nil => simp
  | cons b bs ih =>
      rw [view_cons, List.mem_cons, Nat.add_assoc, ih]
      constructor
      · rintro (rfl | ⟨o, d, hd, rfl⟩)
        · exact ⟨base, b, Or.inl ⟨rfl, rfl⟩, rfl⟩
        · exact ⟨o, d, Or.inr hd, rfl⟩
      · rintro ⟨o, d, ⟨rfl, rfl⟩ | hd, rfl⟩
        · exact Or.inl rfl
        · exact Or.inr ⟨o, d, hd, rfl⟩

/-! ## Reading a represented heap -/

section Reading

variable {h : Heap} {pre bs : List Block}

/-- The walk from any block of a layout, with fuel for the rest of the list. -/
theorem entriesFrom_of_layout (L : Layout h (pre ++ bs)) {fuel : Nat} (hfuel : bs.length < fuel) :
    entriesFrom h.mem fuel (h.memStartBrk + firstOffset + span pre) =
      view (h.memStartBrk + firstOffset + span pre) bs := by
  induction bs generalizing pre fuel with
  | nil =>
      obtain ⟨fuel, rfl⟩ : ∃ n, fuel = n + 1 := ⟨fuel - 1, by simp at hfuel; omega⟩
      have hbrk := L.brk
      rw [List.append_nil] at hbrk
      rw [entriesFrom, ← hbrk, hdrp, WSIZE, L.epilogue_size]
      rfl
  | cons b bs ih =>
      obtain ⟨fuel, rfl⟩ : ∃ n, fuel = n + 1 := ⟨fuel - 1, by simp at hfuel; omega⟩
      have hnext := ih L.advance (by simpa using hfuel)
      rw [span_append, span_cons, span_nil, Nat.add_zero, ← Nat.add_assoc] at hnext
      rw [entriesFrom, hdrp, WSIZE, L.size_eq, L.alloc_eq, if_pos b.size_pos, L.nextBlkp_eq,
        ← Nat.add_assoc, hnext]
      rfl

theorem entries_of_layout (L : Layout h bs) :
    entries h = Entry.prologue h.memStartBrk :: view (h.memStartBrk + firstOffset) bs := by
  obtain ⟨hsize, halloc, hnext⟩ := visit_prologue L
  have hlen := length_lt_brk L
  obtain ⟨fuel, hk⟩ : ∃ k, h.memBrk = k + 1 := ⟨h.memBrk - 1, by omega⟩
  have L' : Layout h ([] ++ bs) := L
  have hblocks := entriesFrom_of_layout L' (show bs.length < fuel by omega)
  rw [span_nil, Nat.add_zero] at hblocks
  rw [entries, L.listp, hk, entriesFrom, hsize, halloc, hnext, if_pos (by decide), hblocks]
  rfl

theorem Represents.entries_eq {a : NextFit} (R : Represents h a) :
    entries h = Entry.prologue h.memStartBrk :: view (h.memStartBrk + firstOffset) a.blocks :=
  entries_of_layout R.layout

theorem Represents.mem_entries {a : NextFit} {o : Nat} {b : Block} (R : Represents h a)
    (hb : StartsAt Block.size firstOffset a.blocks o b) :
    b.entry (h.memStartBrk + o) ∈ entries h := by
  rw [R.entries_eq]
  exact List.mem_cons_of_mem _ (mem_view.mpr ⟨o, b, hb, rfl⟩)

/-- A cursor on a boundary is the address of an entry. -/
theorem Represents.cursor_mem {a : NextFit} (R : Represents h a) :
    ∃ e ∈ entries h, h.nextFitPointer = e.addr := by
  rcases R.valid.cursor with hc | ⟨b, hb⟩
  · refine ⟨Entry.prologue h.memStartBrk, ?_, ?_⟩
    · rw [R.entries_eq]
      exact List.mem_cons_self
    · rw [R.cursor, hc]
      rfl
  · exact ⟨_, R.mem_entries hb, R.cursor⟩

end Reading

end CompOrg.Malloc
