import CompOrg.Malloc.Tags
import CompOrg.Malloc.NextFitInvariant

/-! # Heaps laid out by tags

`Layout h bs` says that the tag words in the memory of `h` describe exactly the
blocks `bs` between prologue and epilogue. Reading the tags back gives the sizes
and bits of `bs`; replacing a middle part of the list needs new tags for that
part and a frame for the rest.
-/

namespace CompOrg.Malloc

open Memory Segments

/-- From payload `p` on, every block of the list has its tag in header and footer. -/
def Tiled (m : Memory) : Nat → List Block → Prop
  | _, [] => True
  | p, b :: bs =>
      get m (p - 4) = b.tag ∧ get m (p + b.size - 8) = b.tag ∧ Tiled m (p + b.size) bs

@[simp] theorem tiled_nil (m : Memory) (p : Nat) : Tiled m p [] := trivial

theorem tiled_append {m : Memory} {p : Nat} {xs ys : List Block} :
    Tiled m p (xs ++ ys) ↔ Tiled m p xs ∧ Tiled m (p + span xs) ys := by
  induction xs generalizing p with
  | nil => simp
  | cons x xs ih => simp [Tiled, ih, and_assoc, Nat.add_assoc]

/-- Only the tag words of the listed blocks matter. -/
theorem Tiled.congr {m m' : Memory} {p : Nat} {bs : List Block} (hp : 4 ≤ p) (h : Tiled m p bs)
    (hsame : ∀ x, p ≤ x + 4 → x + 4 < p + span bs → m' x = m x) : Tiled m' p bs := by
  induction bs generalizing p with
  | nil => trivial
  | cons b bs ih =>
      have := b.minimum
      rw [span_cons] at hsame
      obtain ⟨hhead, hfoot, htail⟩ := h
      refine ⟨?_, ?_, ih (by omega) htail fun x hlo hhi => hsame x (by omega) (by omega)⟩
      · rw [← hhead]
        exact readWord_congr fun x hlo hhi => hsame x (by omega) (by omega)
      · rw [← hfoot]
        exact readWord_congr fun x hlo hhi => hsame x (by omega) (by omega)

theorem Tiled.frame {m m' : Memory} {p lo hi : Nat} {bs : List Block} (hp : 4 ≤ p)
    (h : Tiled m p bs) (hsame : SameOutside m m' lo hi)
    (hout : p + span bs ≤ lo + 4 ∨ hi + 4 ≤ p) : Tiled m' p bs :=
  h.congr hp fun x hlo hhi => hsame x (by omega)

structure Layout (h : Heap) (bs : List Block) : Prop where
  aligned : h.memStartBrk % 8 = 0
  maxAddr : h.memMaxAddr = h.memStartBrk + MAX_HEAP
  addressable : h.memMaxAddr < 2 ^ 32
  listp : h.heapListp = h.memStartBrk + prologueOffset
  prologueHeader : get h.mem (h.memStartBrk + 4) = pack DSIZE 1
  prologueFooter : get h.mem (h.memStartBrk + 8) = pack DSIZE 1
  tiled : Tiled h.mem (h.memStartBrk + firstOffset) bs
  brk : h.memBrk = h.memStartBrk + firstOffset + span bs
  inBounds : h.memBrk ≤ h.memMaxAddr
  epilogue : get h.mem (h.memBrk - 4) = pack 0 1

/-! ## Tags of a block -/

section Tag

variable {m : Memory} {p : Nat} {b : Block}

theorem Block.tag_eq_pack_zero (hb : b.alloc = false) : b.tag = pack b.size 0 := by
  simp [Block.tag, hb]

theorem Block.taken_tag : b.taken.tag = pack b.size 1 := rfl

theorem Block.rest_tag {w : Block} (h : w.size + 16 ≤ b.size) :
    (w.rest b h).tag = pack (b.size - w.size) 0 := rfl

theorem Block.freed_tag : b.freed.tag = pack b.size 0 := rfl

theorem Block.tag_lt (hlt : b.size < 2 ^ 32) : b.tag < 2 ^ 32 :=
  pack_lt b.aligned hlt (by split <;> decide)

theorem getSize_of_tag (h : get m p = b.tag) (hlt : b.size < 2 ^ 32) : getSize m p = b.size :=
  getSize_of_get h b.aligned hlt (by split <;> decide)

theorem getAlloc_of_tag (h : get m p = b.tag) : getAlloc m p = if b.alloc then 1 else 0 :=
  getAlloc_of_get h b.aligned (by split <;> decide)

/-- Header and footer written at their addresses, in either order. -/
theorem tagged_put (hp : 4 ≤ p) (hlt : b.size < 2 ^ 32) :
    Tiled (put (put m (p - 4) b.tag) (p + b.size - 8) b.tag) p [b] ∧
      SameOutside m (put (put m (p - 4) b.tag) (p + b.size - 8) b.tag) (p - 4)
        (p + b.size - 4) := by
  have hmin := b.minimum
  have htag := Block.tag_lt hlt
  refine ⟨⟨?_, get_put_same htag, trivial⟩, ?_⟩
  · rw [get_put_of_disjoint (by omega), get_put_same htag]
  · exact (sameOutside_put (by omega) (by omega)).trans (sameOutside_put (by omega) (by omega))

theorem tagged_put_swap (hp : 4 ≤ p) (hlt : b.size < 2 ^ 32) :
    Tiled (put (put m (p + b.size - 8) b.tag) (p - 4) b.tag) p [b] ∧
      SameOutside m (put (put m (p + b.size - 8) b.tag) (p - 4) b.tag) (p - 4)
        (p + b.size - 4) := by
  have hmin := b.minimum
  have htag := Block.tag_lt hlt
  refine ⟨⟨get_put_same htag, ?_, trivial⟩, ?_⟩
  · rw [get_put_of_disjoint (by omega), get_put_same htag]
  · exact (sameOutside_put (by omega) (by omega)).trans (sameOutside_put (by omega) (by omega))

/-- The footer address that follows from a header just written. -/
theorem ftrp_put_header (hlt : b.size < 2 ^ 32) :
    ftrp (put m (p - 4) b.tag) p = p + b.size - 8 := by
  rw [ftrp, hdrp, WSIZE, DSIZE, getSize_of_tag (get_put_same (Block.tag_lt hlt)) hlt]

end Tag

/-! ## Reading a layout -/

namespace Layout

variable {h : Heap} {bs pre mid post : List Block} {b q n : Block}

theorem span_lt (L : Layout h bs) : span bs < 2 ^ 32 := by
  have := L.brk
  have := L.inBounds
  have := L.addressable
  omega

theorem brk_aligned (L : Layout h bs) : h.memBrk % 8 = 0 := by
  have hspan : ∀ bs : List Block, span bs % 8 = 0 := by
    intro bs
    induction bs with
    | nil => rfl
    | cons b bs ih =>
        have := b.aligned
        rw [span_cons]
        omega
  have := L.aligned
  have := hspan bs
  rw [L.brk, firstOffset]
  omega

theorem listp_ne_zero (L : Layout h bs) : h.heapListp ≠ 0 := by
  rw [L.listp, prologueOffset]
  omega

theorem ensureInit_eq (L : Layout h bs) : ensureInit h = h := if_neg L.listp_ne_zero

section Middle

variable (L : Layout h (pre ++ b :: post))
include L

theorem size_lt : b.size < 2 ^ 32 := by
  have := L.span_lt
  rw [span_append, span_cons] at this
  omega

theorem tags : Tiled h.mem (h.memStartBrk + firstOffset + span pre) (b :: post) :=
  (tiled_append.mp L.tiled).2

theorem size_eq : getSize h.mem (h.memStartBrk + firstOffset + span pre - 4) = b.size :=
  getSize_of_tag L.tags.1 L.size_lt

theorem alloc_eq :
    getAlloc h.mem (h.memStartBrk + firstOffset + span pre - 4) = if b.alloc then 1 else 0 :=
  getAlloc_of_tag L.tags.1

theorem ftrp_eq :
    ftrp h.mem (h.memStartBrk + firstOffset + span pre) =
      h.memStartBrk + firstOffset + span pre + b.size - 8 := by
  rw [ftrp, hdrp, WSIZE, DSIZE, L.size_eq]

theorem nextBlkp_eq :
    nextBlkp h.mem (h.memStartBrk + firstOffset + span pre) =
      h.memStartBrk + firstOffset + (span pre + b.size) := by
  rw [nextBlkp, WSIZE, L.size_eq, Nat.add_assoc _ (span pre)]

end Middle

/-- The same layout, cut one block later. -/
theorem advance (L : Layout h (pre ++ q :: bs)) : Layout h ((pre ++ [q]) ++ bs) := by
  rwa [List.append_assoc]

theorem size_eq_next (L : Layout h (pre ++ q :: b :: post)) :
    getSize h.mem (h.memStartBrk + firstOffset + (span pre + q.size) - 4) = b.size := by
  simpa using L.advance.size_eq

theorem ftrp_eq_next (L : Layout h (pre ++ q :: b :: post)) :
    ftrp h.mem (h.memStartBrk + firstOffset + (span pre + q.size)) =
      h.memStartBrk + firstOffset + span pre + (q.size + b.size) - 8 := by
  rw [ftrp, hdrp, WSIZE, DSIZE, L.size_eq_next]
  omega

/-- The previous block, reached through the footer in front of a header. -/
theorem prevBlkp_eq (L : Layout h (pre ++ q :: b :: post)) :
    prevBlkp h.mem (h.memStartBrk + firstOffset + (span pre + q.size)) =
      h.memStartBrk + firstOffset + span pre := by
  have hfoot := getSize_of_tag L.tags.2.1 L.size_lt
  rw [prevBlkp, DSIZE, ← Nat.add_assoc, hfoot]
  omega

/-- The first block has the prologue before it. -/
theorem prevBlkp_first (L : Layout h bs) :
    prevBlkp h.mem (h.memStartBrk + firstOffset) = h.memStartBrk + prologueOffset := by
  have hfoot : getSize h.mem (h.memStartBrk + 8) = 8 :=
    getSize_of_get L.prologueFooter rfl (by decide) (by decide)
  rw [prevBlkp, DSIZE, firstOffset, prologueOffset, show h.memStartBrk + 16 - 8 =
    h.memStartBrk + 8 by omega, hfoot]
  omega

theorem prologue_size (L : Layout h bs) : getSize h.mem (h.memStartBrk + 4) = 8 :=
  getSize_of_get L.prologueHeader rfl (by decide) (by decide)

theorem prologue_alloc (L : Layout h bs) : getAlloc h.mem (h.memStartBrk + 4) = 1 :=
  getAlloc_of_get L.prologueHeader rfl (by decide)

theorem epilogue_size (L : Layout h bs) : getSize h.mem (h.memBrk - 4) = 0 :=
  getSize_of_get L.epilogue rfl (by decide) (by decide)

theorem epilogue_alloc (L : Layout h bs) : getAlloc h.mem (h.memBrk - 4) = 1 :=
  getAlloc_of_get L.epilogue rfl (by decide)

/-- The bit that `coalesce` reads from the footer in front of a block. -/
theorem prevAlloc_eq_zero_iff (L : Layout h (pre ++ b :: post)) :
    getAlloc h.mem (ftrp h.mem (prevBlkp h.mem (h.memStartBrk + firstOffset + span pre))) = 0 ↔
      ∃ pre' q, pre = pre' ++ [q] ∧ q.alloc = false := by
  rcases List.eq_nil_or_concat pre with rfl | ⟨pre', q, rfl⟩
  · have hfoot : getAlloc h.mem (h.memStartBrk + 8) = 1 :=
      getAlloc_of_get L.prologueFooter rfl (by decide)
    rw [span_nil, Nat.add_zero, L.prevBlkp_first, ftrp, hdrp, WSIZE, DSIZE, prologueOffset,
      show h.memStartBrk + 8 - 4 = h.memStartBrk + 4 by omega, L.prologue_size,
      show h.memStartBrk + 8 + 8 - 8 = h.memStartBrk + 8 by omega, hfoot]
    simp
  · rw [List.concat_eq_append] at L ⊢
    rw [List.append_assoc, List.singleton_append] at L
    rw [span_append, span_cons, span_nil, Nat.add_zero, L.prevBlkp_eq, L.ftrp_eq,
      getAlloc_of_tag L.tags.2.1]
    cases hq : q.alloc <;> simp [hq]

/-- The bit that `coalesce` reads from the header after a block. -/
theorem nextAlloc_eq_zero_iff (L : Layout h (pre ++ b :: post)) :
    getAlloc h.mem (hdrp (nextBlkp h.mem (h.memStartBrk + firstOffset + span pre))) = 0 ↔
      ∃ n post', post = n :: post' ∧ n.alloc = false := by
  rw [L.nextBlkp_eq, hdrp, WSIZE]
  cases post with
  | nil =>
      have hbrk := L.brk
      rw [span_append, span_cons, span_nil, Nat.add_zero] at hbrk
      rw [← hbrk, L.epilogue_alloc]
      simp
  | cons n post' =>
      have L' : Layout h ((pre ++ [b]) ++ n :: post') := by simpa using L
      have halloc := L'.alloc_eq
      rw [span_append, span_cons, span_nil, Nat.add_zero] at halloc
      rw [halloc]
      cases hn : n.alloc <;> simp [hn]

/-! ## Replacing blocks -/

/-- New tags for the middle part, nothing else touched. -/
theorem retile {ds : List Block} {m : Memory} (L : Layout h (pre ++ mid ++ post))
    (hspan : span ds = span mid)
    (ht : Tiled m (h.memStartBrk + firstOffset + span pre) ds)
    (hsame : SameOutside h.mem m (h.memStartBrk + firstOffset + span pre - 4)
      (h.memStartBrk + firstOffset + span pre + span ds - 4)) :
    Layout { h with mem := m } (pre ++ ds ++ post) := by
  obtain ⟨hpm, hpost⟩ := tiled_append.mp L.tiled
  obtain ⟨hpre, -⟩ := tiled_append.mp hpm
  have hbrk := L.brk
  simp only [span_append] at hbrk hpost
  have hoff : firstOffset = 16 := rfl
  refine ⟨L.aligned, L.maxAddr, L.addressable, L.listp, ?_, ?_, ?_, ?_, L.inBounds, ?_⟩
  · rw [← L.prologueHeader]
    exact hsame.readWord_eq (by dsimp only; omega)
  · rw [← L.prologueFooter]
    exact hsame.readWord_eq (by dsimp only; omega)
  · refine tiled_append.mpr ⟨tiled_append.mpr ⟨?_, ht⟩, ?_⟩
    · exact hpre.frame (by dsimp only; omega) hsame (by dsimp only; omega)
    · simp only [span_append, hspan]
      exact hpost.frame (by omega) hsame (by omega)
  · simp only [span_append, hspan]
    exact hbrk
  · rw [← L.epilogue]
    exact hsame.readWord_eq (by dsimp only; omega)

/-- Moving the cursor does not concern the layout. -/
theorem withCursor (L : Layout h bs) (p : Nat) : Layout { h with nextFitPointer := p } bs :=
  ⟨L.aligned, L.maxAddr, L.addressable, L.listp, L.prologueHeader, L.prologueFooter, L.tiled,
    L.brk, L.inBounds, L.epilogue⟩

end Layout

/-! ## Frames of allocated blocks -/

/-- Header, payload capacity and footer of every allocated block of `bs` are the
same in both memories. -/
def KeepsAllocated (start : Nat) (bs : List Block) (m m' : Memory) : Prop :=
  ∀ p n, AllocAt firstOffset bs p n →
    ∀ x, start + p ≤ x + 4 → x + 4 < start + p + n → m' x = m x

theorem KeepsAllocated.refl (start : Nat) (bs : List Block) (m : Memory) :
    KeepsAllocated start bs m m := fun _ _ _ _ _ _ => rfl

theorem KeepsAllocated.trans {start : Nat} {bs : List Block} {m m' m'' : Memory}
    (h : KeepsAllocated start bs m m') (h' : KeepsAllocated start bs m' m'') :
    KeepsAllocated start bs m m'' :=
  fun p n hp x hlo hhi => (h' p n hp x hlo hhi).trans (h p n hp x hlo hhi)

theorem KeepsAllocated.congr {start : Nat} {bs cs : List Block} {m m' : Memory}
    (hsub : ∀ p n, AllocAt firstOffset cs p n → AllocAt firstOffset bs p n)
    (h : KeepsAllocated start bs m m') : KeepsAllocated start cs m m' :=
  fun p n hp => h p n (hsub p n hp)

theorem allocAt_false_of_free {base p n : Nat} {bs : List Block}
    (hfree : ∀ b ∈ bs, b.alloc = false) : ¬ AllocAt base bs p n := by
  induction bs generalizing base with
  | nil => exact not_allocAt_nil
  | cons b bs ih =>
      rw [allocAt_cons]
      rintro (⟨-, ha, -⟩ | h)
      · simp [hfree b (by simp)] at ha
      · exact ih (fun c hc => hfree c (by simp [hc])) h

/-- Writes above the last block keep every allocated block. -/
theorem keepsAllocated_of_above {start lo hi : Nat} {bs : List Block} {m m' : Memory}
    (hsame : SameOutside m m' lo hi) (hlo : start + firstOffset + span bs ≤ lo + 4) :
    KeepsAllocated start bs m m' := by
  intro p n hp x _ hx
  have := hp.bounds
  exact hsame x (by omega)

/-- Writes inside a run of free blocks keep every allocated block. -/
theorem keepsAllocated_of_free_run {start lo hi : Nat} {pre mid post : List Block}
    {m m' : Memory} (hfree : ∀ b ∈ mid, b.alloc = false)
    (hsame : SameOutside m m' lo hi) (hlo : start + firstOffset + span pre ≤ lo + 4)
    (hhi : hi + 4 ≤ start + firstOffset + span pre + span mid) :
    KeepsAllocated start (pre ++ mid ++ post) m m' := by
  intro p n hp x hx hx'
  simp only [allocAt_append, span_append] at hp
  rcases hp with (hp | hp) | hp
  · have := hp.bounds
    exact hsame x (by omega)
  · exact (allocAt_false_of_free hfree hp).elim
  · have := hp.bounds
    exact hsame x (by omega)

end CompOrg.Malloc
