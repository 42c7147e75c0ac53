import CompOrg.Malloc.Coalesce

/-! # The allocator refines next fit

`Represents h a` connects a heap with a list of blocks and a cursor. Each function
of the interface, run on a heap that represents `a`, ends in a heap that
represents what the abstract operation makes of `a`, returns the same position,
and keeps every allocated block that it was not asked to free.
-/

namespace CompOrg.Malloc

open Memory Segments

structure Represents (h : Heap) (a : NextFit) : Prop where
  layout : Layout h a.blocks
  cursor : h.nextFitPointer = h.memStartBrk + a.cursor
  valid : a.Valid

/-- A result as a pointer: `NULL`, or an address above the heap start. -/
def pointer (start : Nat) : Option Nat → Nat
  | none => 0
  | some o => start + o

/-! ## `place` -/

section Place

variable {h : Heap} {pre post : List Block} {b w : Block}

theorem tagged_two {m : Memory} {p : Nat} {v r : Block} (hp : 4 ≤ p) (hv : v.size < 2 ^ 32)
    (hr : r.size < 2 ^ 32) :
    let m₂ := put (put m (p - 4) v.tag) (p + v.size - 8) v.tag
    let m₄ := put (put m₂ (p + v.size - 4) r.tag) (p + v.size + r.size - 8) r.tag
    Tiled m₄ p [v, r] ∧ SameOutside m m₄ (p - 4) (p + (v.size + r.size) - 4) := by
  intro m₂ m₄
  have hvmin := v.minimum
  have hrmin := r.minimum
  obtain ⟨hfirst, hframe⟩ := tagged_put (m := m) hp hv
  obtain ⟨hsecond, hframe'⟩ := tagged_put (m := m₂) (p := p + v.size) (by omega) hr
  refine ⟨?_, ?_⟩
  · have hsplit : Tiled m₄ p ([v] ++ [r]) := by
      refine tiled_append.mpr ⟨hfirst.frame hp hframe' ?_, by simpa using hsecond⟩
      simp only [span_cons, span_nil]
      omega
    exact hsplit
  · exact (hframe.mono (Nat.le_refl _) (by omega)).trans (hframe'.mono (by omega) (by omega))

theorem place_split (L : Layout h (pre ++ b :: post)) (hbig : w.size + 16 ≤ b.size) :
    ∃ m, place h (h.memStartBrk + firstOffset + span pre) w.size = { h with mem := m } ∧
      Tiled m (h.memStartBrk + firstOffset + span pre) [w.taken, w.rest b hbig] ∧
      SameOutside h.mem m (h.memStartBrk + firstOffset + span pre - 4)
        (h.memStartBrk + firstOffset + span pre + b.size - 4) := by
  have hblt := L.size_lt
  have hwmin := w.minimum
  have hp : 4 ≤ h.memStartBrk + firstOffset + span pre := by
    rw [firstOffset]
    omega
  have hrest : sizeT (b.size + 2 ^ 32 - w.size) = b.size - w.size := by
    rw [sizeT]
    omega
  have hv : w.taken.size < 2 ^ 32 := by
    rw [Block.taken_size]
    omega
  have hr : (w.rest b hbig).size < 2 ^ 32 := by
    rw [Block.rest_size]
    omega
  have hfoot := ftrp_put_header (m := h.mem)
    (p := h.memStartBrk + firstOffset + span pre) hv
  have hnext : nextBlkp (put (put h.mem (h.memStartBrk + firstOffset + span pre - 4)
      w.taken.tag) (h.memStartBrk + firstOffset + span pre + w.size - 8) w.taken.tag)
      (h.memStartBrk + firstOffset + span pre) =
        h.memStartBrk + firstOffset + span pre + w.size := by
    rw [nextBlkp_put (by omega), nextBlkp, WSIZE,
      getSize_of_tag (get_put_same (Block.tag_lt hv)) hv, Block.taken_size]
  obtain ⟨ht, hsame⟩ := tagged_two (m := h.mem) hp hv hr
  simp only [Block.taken_size, Block.rest_size] at hfoot ht hsame
  rw [show w.size + (b.size - w.size) = b.size by omega] at hsame
  refine ⟨_, ?_, ht, hsame⟩
  simp only [place, hdrp, WSIZE, DSIZE, L.size_eq, hrest]
  rw [if_pos (by omega)]
  simp only [← Block.taken_tag, hfoot, hnext, ← Block.rest_tag hbig]
  rw [ftrp_put_header hr, Block.rest_size]

theorem place_whole (L : Layout h (pre ++ b :: post)) (hfit : w.size ≤ b.size)
    (hsmall : ¬ w.size + 16 ≤ b.size) :
    ∃ m, place h (h.memStartBrk + firstOffset + span pre) w.size = { h with mem := m } ∧
      Tiled m (h.memStartBrk + firstOffset + span pre) [b.taken] ∧
      SameOutside h.mem m (h.memStartBrk + firstOffset + span pre - 4)
        (h.memStartBrk + firstOffset + span pre + b.size - 4) := by
  have hblt : b.taken.size < 2 ^ 32 := L.size_lt
  have hp : 4 ≤ h.memStartBrk + firstOffset + span pre := by
    rw [firstOffset]
    omega
  have hrest : sizeT (b.size + 2 ^ 32 - w.size) = b.size - w.size := by
    rw [Block.taken_size] at hblt
    rw [sizeT]
    omega
  obtain ⟨ht, hsame⟩ := tagged_put (m := h.mem) hp hblt
  refine ⟨_, ?_, ht, hsame⟩
  simp only [place, hdrp, WSIZE, DSIZE, L.size_eq, hrest]
  rw [if_neg (by omega)]
  simp only [← Block.taken_tag]
  rw [ftrp_put_header hblt]

theorem place_spec (L : Layout h (pre ++ b :: post)) (hfit : w.size ≤ b.size) :
    ∃ m, place h (h.memStartBrk + firstOffset + span pre) w.size = { h with mem := m } ∧
      Layout { h with mem := m } (pre ++ w.split b ++ post) ∧
      SameOutside h.mem m (h.memStartBrk + firstOffset + span pre - 4)
        (h.memStartBrk + firstOffset + span pre + b.size - 4) := by
  have hcut : Layout h (pre ++ [b] ++ post) := by simpa using L
  have hone : span [b] = b.size := by simp
  have hspan := span_split w b
  by_cases hbig : w.size + 16 ≤ b.size
  · obtain ⟨m, hm, ht, hsame⟩ := place_split L hbig
    have hsplit : w.split b = [w.taken, w.rest b hbig] := dif_pos hbig
    rw [hsplit] at hspan ⊢
    exact ⟨m, hm, hcut.retile (hspan.trans hone.symm) ht (by rwa [hspan]), hsame⟩
  · obtain ⟨m, hm, ht, hsame⟩ := place_whole L hfit hbig
    have hsplit : w.split b = [b.taken] := dif_neg hbig
    rw [hsplit] at hspan ⊢
    exact ⟨m, hm, hcut.retile (hspan.trans hone.symm) ht (by rwa [hspan]), hsame⟩

theorem represents_place {a : NextFit} {o : Nat} (R : Represents h a)
    (hblocks : a.blocks = pre ++ b :: post) (ho : o = firstOffset + span pre)
    (hfree : b.alloc = false) (hfit : w.size ≤ b.size) :
    ∃ m, place h (h.memStartBrk + o) w.size = { h with mem := m } ∧
      Represents { h with mem := m } (a.place w o) ∧
      KeepsAllocated h.memStartBrk a.blocks h.mem m := by
  have L := R.layout
  rw [hblocks] at L
  obtain ⟨m, hm, hL, hsame⟩ := place_spec L hfit
  refine ⟨m, by rw [ho, ← Nat.add_assoc, hm], ⟨?_, R.cursor, ?_⟩, ?_⟩
  · rw [NextFit.place_blocks hblocks ho]
    exact hL
  · exact NextFit.place_valid R.valid hblocks ho hfree
  · have hcut : a.blocks = pre ++ [b] ++ post := by simpa using hblocks
    have hoff : firstOffset = 16 := rfl
    rw [hcut]
    exact keepsAllocated_of_free_run (by simp [hfree]) hsame (by omega) (by simp; omega)

end Place

/-! ## `find_fit` -/

section FindFit

variable {h : Heap} {pre mid post : List Block} {b : Block} {n : Nat}

def cursorAt (h : Heap) (o : Nat) : Heap := { h with nextFitPointer := h.memStartBrk + o }

/-- One visit of a block: whether it fits, and where the next one is. -/
theorem visit {o : Nat} (L : Layout h (pre ++ b :: post)) (ho : o = firstOffset + span pre) :
    (getAlloc h.mem (hdrp (h.memStartBrk + o)) = 0 ∧ n ≤ getSize h.mem (hdrp (h.memStartBrk + o)) ↔
      b.alloc = false ∧ n ≤ b.size) ∧
    0 < getSize h.mem (hdrp (h.memStartBrk + o)) ∧
    nextBlkp h.mem (h.memStartBrk + o) = h.memStartBrk + (o + b.size) := by
  subst ho
  have hnext := L.nextBlkp_eq
  rw [← Nat.add_assoc] at hnext
  rw [hdrp, WSIZE, ← Nat.add_assoc, L.size_eq, L.alloc_eq]
  exact ⟨by simp, b.size_pos, by rw [hnext]; simp only [Nat.add_assoc]⟩

/-- The first loop, from a block on: the first fit, or the epilogue. -/
theorem findFitToEnd_eq {o : Nat} (L : Layout h (pre ++ post)) (ho : o = firstOffset + span pre)
    {fuel : Nat} (hfuel : post.length < fuel) :
    findFitToEnd n fuel (cursorAt h o) =
      some (match NextFit.firstFit n (fun _ => true) o post with
        | some p => (cursorAt h p, h.memStartBrk + p)
        | none => (cursorAt h (o + span post), 0)) := by
  induction post generalizing pre o fuel with
  | nil =>
      obtain ⟨fuel, rfl⟩ : ∃ k, fuel = k + 1 := ⟨fuel - 1, by simp at hfuel; omega⟩
      have hsize := L.epilogue_size
      rw [L.brk, List.append_nil, Nat.add_assoc h.memStartBrk, ← ho] at hsize
      simp [findFitToEnd, NextFit.firstFit, cursorAt, hdrp, WSIZE, hsize]
  | cons b post ih =>
      obtain ⟨fuel, rfl⟩ : ∃ k, fuel = k + 1 := ⟨fuel - 1, by simp at hfuel; omega⟩
      obtain ⟨hfits, hpos, hnext⟩ := visit (n := n) L ho
      rw [findFitToEnd, NextFit.firstFit]
      simp only [cursorAt, hfits, hnext, if_pos hpos, true_and]
      split
      next => rfl
      next =>
        have ho' : o + b.size = firstOffset + span (pre ++ [b]) := by simp [ho, Nat.add_assoc]
        rw [span_cons, ← Nat.add_assoc o b.size]
        exact ih L.advance ho' (by simpa using hfuel)

/-- The second loop, from a block up to the old cursor. -/
theorem findFitToOld_eq {o : Nat} (L : Layout h (pre ++ mid ++ post))
    (ho : o = firstOffset + span pre) {fuel : Nat} (hfuel : mid.length < fuel) :
    findFitToOld n (h.memStartBrk + (o + span mid)) fuel (cursorAt h o) =
      some (match NextFit.firstFit n (fun _ => true) o mid with
        | some p => (cursorAt h p, h.memStartBrk + p)
        | none => (cursorAt h (o + span mid), 0)) := by
  induction mid generalizing pre o fuel with
  | nil =>
      obtain ⟨fuel, rfl⟩ : ∃ k, fuel = k + 1 := ⟨fuel - 1, by simp at hfuel; omega⟩
      simp [findFitToOld, NextFit.firstFit, cursorAt]
  | cons b mid ih =>
      obtain ⟨fuel, rfl⟩ : ∃ k, fuel = k + 1 := ⟨fuel - 1, by simp at hfuel; omega⟩
      have L' : Layout h (pre ++ b :: (mid ++ post)) := by simpa using L
      obtain ⟨hfits, -, hnext⟩ := visit (n := n) L' ho
      have hpos := b.size_pos
      rw [findFitToOld, NextFit.firstFit]
      simp only [cursorAt, hfits, hnext, span_cons, true_and]
      rw [if_pos (by omega)]
      split
      next => rfl
      next =>
        have ho' : o + b.size = firstOffset + span (pre ++ [b]) := by simp [ho, Nat.add_assoc]
        rw [← Nat.add_assoc o b.size]
        exact ih (by simpa using L) ho' (by simpa using hfuel)

/-- Both loops step over the prologue, which is allocated. -/
theorem visit_prologue {bs : List Block} (L : Layout h bs) :
    getSize h.mem (hdrp (h.memStartBrk + prologueOffset)) = 8 ∧
    getAlloc h.mem (hdrp (h.memStartBrk + prologueOffset)) = 1 ∧
    nextBlkp h.mem (h.memStartBrk + prologueOffset) = h.memStartBrk + firstOffset := by
  have hp : h.memStartBrk + prologueOffset - 4 = h.memStartBrk + 4 := by
    rw [prologueOffset]
    omega
  rw [hdrp, WSIZE, nextBlkp, WSIZE, hp, L.prologue_size, L.prologue_alloc]
  exact ⟨rfl, rfl, rfl⟩

theorem length_lt_brk {bs : List Block} (L : Layout h bs) : bs.length + 1 < h.memBrk := by
  have hlen : ∀ bs : List Block, 16 * bs.length ≤ span bs := by
    intro bs
    induction bs with
    | nil => simp
    | cons b bs ih =>
        have := b.minimum
        rw [List.length_cons, span_cons]
        omega
  have := hlen bs
  rw [L.brk, firstOffset]
  omega

theorem findFitToEnd_of_represents {a : NextFit} (R : Represents h a) (n : Nat) :
    ∃ pre post, a.blocks = pre ++ post ∧
      (a.cursor = prologueOffset ∧ pre = [] ∨ a.cursor = firstOffset + span pre) ∧
      findFitToEnd n h.memBrk h =
        some (match NextFit.firstFit n (fun _ => true) (firstOffset + span pre) post with
          | some p => (cursorAt h p, h.memStartBrk + p)
          | none => (cursorAt h (firstOffset + span a.blocks), 0)) := by
  have hself : h = cursorAt h a.cursor := by rw [cursorAt, ← R.cursor]
  have hfuel := length_lt_brk R.layout
  rcases R.valid.cursor with hc | ⟨b, hb⟩
  · refine ⟨[], a.blocks, rfl, Or.inl ⟨hc, rfl⟩, ?_⟩
    obtain ⟨fuel, hk⟩ : ∃ k, h.memBrk = k + 1 := ⟨h.memBrk - 1, by omega⟩
    obtain ⟨hsize, halloc, hnext⟩ := visit_prologue R.layout
    rw [hk, hself, hc, findFitToEnd]
    simp only [cursorAt, hsize, halloc, hnext]
    rw [if_pos (by decide), if_neg (by simp)]
    have hlen : a.blocks.length < fuel := by omega
    have L : Layout h ([] ++ a.blocks) := R.layout
    exact findFitToEnd_eq L rfl hlen
  · obtain ⟨pre, post, hblocks, ho⟩ := startsAt_iff_exists_append.mp hb
    refine ⟨pre, b :: post, hblocks, Or.inr ho, ?_⟩
    have L := R.layout
    rw [hblocks] at L
    have hlen : (b :: post).length < h.memBrk := by
      rw [hblocks, List.length_append] at hfuel
      omega
    have heq := findFitToEnd_eq (n := n) L ho hlen
    rw [← hself] at heq
    rw [heq, ho, hblocks, span_append, ← Nat.add_assoc]
    rfl

theorem findFitToOld_from_prologue (L : Layout h (pre ++ post)) :
    findFitToOld n (h.memStartBrk + (firstOffset + span pre)) h.memBrk
        (cursorAt h prologueOffset) =
      some (match NextFit.firstFit n (fun _ => true) firstOffset pre with
        | some p => (cursorAt h p, h.memStartBrk + p)
        | none => (cursorAt h (firstOffset + span pre), 0)) := by
  have hfuel := length_lt_brk L
  rw [List.length_append] at hfuel
  obtain ⟨fuel, hk⟩ : ∃ k, h.memBrk = k + 1 := ⟨h.memBrk - 1, by omega⟩
  obtain ⟨hsize, halloc, hnext⟩ := visit_prologue L
  have hlt : h.memStartBrk + prologueOffset < h.memStartBrk + (firstOffset + span pre) := by
    rw [prologueOffset, firstOffset]
    omega
  have hlen : pre.length < fuel := by omega
  have L' : Layout h ([] ++ pre ++ post) := L
  rw [hk, findFitToOld]
  simp only [cursorAt, hsize, halloc, hnext]
  rw [if_pos hlt, if_neg (by simp)]
  exact findFitToOld_eq L' rfl hlen

theorem findFit_of_found {h' : Heap} {p : Nat} (hend : findFitToEnd n h.memBrk h = some (h', p))
    (hp : p ≠ 0) : findFit h n = some (h', p) := by
  rw [findFit, hend]
  exact if_pos hp

theorem findFit_of_missed {h' : Heap} (hend : findFitToEnd n h.memBrk h = some (h', 0)) :
    findFit h n = findFitToOld n h.nextFitPointer h'.memBrk
      { h' with nextFitPointer := h'.heapListp } := by
  rw [findFit, hend]
  exact if_neg (by simp)

/-- `find_fit` computes the abstract search; without a fit the cursor is back
where it was. -/
theorem findFit_eq {a : NextFit} (R : Represents h a) (n : Nat) :
    findFit h n = some (match a.search n with
      | some o => (cursorAt h o, h.memStartBrk + o)
      | none => (h, 0)) := by
  have hself : cursorAt h a.cursor = h := by rw [cursorAt, ← R.cursor]
  have hlistp : ∀ p, { cursorAt h p with nextFitPointer := h.heapListp } =
      cursorAt h prologueOffset := fun p => by rw [R.layout.listp]; rfl
  obtain ⟨pre, post, hblocks, hcur, hend⟩ := findFitToEnd_of_represents R n
  have hsearch : a.search n = (NextFit.firstFit n (fun _ => true) (firstOffset + span pre) post).or
      (NextFit.firstFit n (fun _ => true) firstOffset pre) := by
    rcases hcur with ⟨hc, rfl⟩ | hc
    · rw [NextFit.search_of_prologue hc, hblocks]
      simp [NextFit.firstFit]
    · rw [NextFit.search_of_cut hblocks hc, hc]
  rw [hsearch]
  cases hfirst : NextFit.firstFit n (fun _ => true) (firstOffset + span pre) post with
  | some p =>
      obtain ⟨b, hb, -⟩ := NextFit.firstFit_some hfirst
      have hp : h.memStartBrk + p ≠ 0 := by
        have := hb.bounds.1
        unfold firstOffset at this
        omega
      rw [hfirst] at hend
      rw [findFit_of_found hend hp, Option.some_or]
  | none =>
      rw [hfirst] at hend
      rw [findFit_of_missed hend, Option.none_or]
      change findFitToOld n h.nextFitPointer h.memBrk
        { cursorAt h (firstOffset + span a.blocks) with nextFitPointer := h.heapListp } = _
      rw [hlistp]
      rcases hcur with ⟨hc, rfl⟩ | hc
      · -- the cursor was at the prologue, so the second loop does not run
        have hbrk := length_lt_brk R.layout
        obtain ⟨fuel, hk⟩ : ∃ k, h.memBrk = k + 1 := ⟨h.memBrk - 1, by omega⟩
        rw [R.cursor, hc, hk, findFitToOld, ← hc, hself]
        simp [NextFit.firstFit, R.cursor]
      · rw [R.cursor, hc, findFitToOld_from_prologue (hblocks ▸ R.layout), ← hc, hself]

end FindFit

end CompOrg.Malloc
