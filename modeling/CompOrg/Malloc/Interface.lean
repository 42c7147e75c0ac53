import CompOrg.Malloc.Refinement

/-! # The interface of the allocator, against next fit

`mm_init` establishes the representation; `mm_malloc`, `mm_free` and `mm_realloc`
carry it from one abstract heap to the next.
-/

namespace CompOrg.Malloc

open Memory Segments

variable {h : Heap} {a : NextFit}

/-! ## `extend_heap` -/

section Extend

variable {c : Block}

theorem onBoundary_append {bs cs : List Block} {o : Nat} (h : OnBoundary bs o) :
    OnBoundary (bs ++ cs) o :=
  h.imp_right fun ⟨b, hb⟩ => ⟨b, startsAt_append.mpr (Or.inl hb)⟩

theorem words_even (c : Block) :
    (if c.size / WSIZE % 2 ≠ 0 then sizeT ((c.size / WSIZE + 1) * WSIZE)
      else sizeT (c.size / WSIZE * WSIZE)) = sizeT c.size := by
  have := c.aligned
  unfold WSIZE
  rw [if_neg (by omega), show c.size / 4 * 4 = c.size by omega]

/-- The tag writes of `extend_heap`: header and footer of the new block over the
old epilogue, and the new epilogue. -/
theorem extended_layout (R : Represents h a) (hfit : h.memBrk + c.size ≤ h.memMaxAddr) :
    let m₂ := put (put h.mem (h.memBrk - 4) c.tag) (h.memBrk + c.size - 8) c.tag
    let m₃ := put m₂ (h.memBrk + c.size - 4) (pack 0 1)
    Layout { h with memBrk := h.memBrk + c.size, mem := m₃ } (a.blocks ++ [c]) ∧
      SameOutside h.mem m₃ (h.memBrk - 4) (h.memBrk + c.size) := by
  intro m₂ m₃
  have L := R.layout
  have hbrk := L.brk
  have haddr := L.addressable
  have hmin := c.minimum
  have hoff : firstOffset = 16 := rfl
  obtain ⟨ht, hsame⟩ := tagged_put (m := h.mem) (p := h.memBrk) (b := c) (by omega) (by omega)
  have hsame₃ : SameOutside m₂ m₃ (h.memBrk + c.size - 4) (h.memBrk + c.size) :=
    sameOutside_put (Nat.le_refl _) (by omega)
  have hall : SameOutside h.mem m₃ (h.memBrk - 4) (h.memBrk + c.size) :=
    (hsame.mono (Nat.le_refl _) (by omega)).trans (hsame₃.mono (by omega) (Nat.le_refl _))
  refine ⟨⟨L.aligned, L.maxAddr, L.addressable, L.listp, ?_, ?_, ?_, ?_, hfit, ?_⟩, hall⟩
  · rw [← L.prologueHeader]
    exact hall.readWord_eq (by dsimp only; omega)
  · rw [← L.prologueFooter]
    exact hall.readWord_eq (by dsimp only; omega)
  · refine tiled_append.mpr ⟨?_, ?_⟩
    · exact L.tiled.frame (by omega) hall (by dsimp only; omega)
    · rw [← hbrk]
      refine ht.frame (by omega) hsame₃ ?_
      simp only [span_cons, span_nil]
      omega
  · simp only [span_append, span_cons, span_nil]
    omega
  · exact get_put_same (by decide)

theorem extendHeap_of_fits (R : Represents h a) (hc : c.alloc = false)
    (hfit : h.memBrk + c.size ≤ h.memMaxAddr) :
    ∃ h', extendHeap h (c.size / WSIZE) =
        (h', h.memStartBrk + startOf Block.size firstOffset (a.grow c).blocks a.brk) ∧
      Represents h' (a.grow c) ∧ h'.memStartBrk = h.memStartBrk ∧
      KeepsAllocated h.memStartBrk a.blocks h.mem h'.mem := by
  have L := R.layout
  have hbrk := L.brk
  have haddr := L.addressable
  have hmax := L.maxAddr
  have haligned := L.brk_aligned
  have hmin := c.minimum
  have hoff : firstOffset = 16 := rfl
  have hlt : c.size < 2 ^ 31 := by
    unfold MAX_HEAP at hmax
    omega
  have htag : pack c.size 0 = c.tag := (Block.tag_eq_pack_zero hc).symm
  obtain ⟨L', hsame⟩ := extended_layout R hfit
  have hfoot := ftrp_put_header (m := h.mem) (p := h.memBrk) (b := c) (by omega)
  have hnext : nextBlkp (put (put h.mem (h.memBrk - 4) c.tag) (h.memBrk + c.size - 8) c.tag)
      h.memBrk = h.memBrk + c.size := by
    rw [nextBlkp_put (by omega), nextBlkp, WSIZE,
      getSize_of_tag (get_put_same (Block.tag_lt (by omega))) (by omega)]
  obtain ⟨h', heq, hco⟩ := coalesce_spec L' hc R.valid.separated separated_nil R.cursor
    (onBoundary_append R.valid.cursor)
  refine ⟨h', ?_, ⟨hco.layout, ?_, NextFit.grow_valid R.valid c⟩, hco.start, ?_⟩
  · rw [extendHeap, words_even, sizeT_of_lt (by omega), memSbrk_of_fits hlt hfit]
    simp only [hdrp, WSIZE, htag, hfoot, hnext]
    rw [← hbrk] at heq
    exact heq
  · rw [hco.cursor, hco.start]
    rfl
  · refine (keepsAllocated_of_above hsame (by omega)).trans
      (hco.keeps.congr fun p n hp => ?_)
    exact allocAt_append.mpr (Or.inl hp)

theorem extendHeap_of_not_fits (hlt : c.size < 2 ^ 32)
    (hfit : h.memMaxAddr < h.memBrk + c.size) : extendHeap h (c.size / WSIZE) = (h, 0) := by
  rw [extendHeap, words_even, sizeT_of_lt hlt, memSbrk_of_not_fits hlt hfit]

end Extend

/-! ## `mm_malloc` -/

section Malloc

variable {size : Nat}

theorem extendsize_eq (size : Nat) :
    maxSize (roundUp size) CHUNKSIZE = (Block.chunk size).size := by
  rw [maxSize, Block.chunk_size]
  split <;> omega

theorem chunk_lt (hsize : size + 15 < 2 ^ 32) : (Block.chunk size).size < 2 ^ 32 := by
  have := roundUp_lt hsize
  rw [Block.chunk_size, CHUNKSIZE]
  omega

/-- Room for a chunk, seen from the break and from the block list. -/
theorem chunk_fits_iff (R : Represents h a) :
    h.memBrk + (Block.chunk size).size ≤ h.memMaxAddr ↔
      a.brk + (Block.chunk size).size ≤ MAX_HEAP := by
  rw [R.layout.brk, R.layout.maxAddr, NextFit.brk]
  omega

theorem mmMalloc_of_none (R : Represents h a) (hsize : size + 15 < 2 ^ 32)
    (hnone : (a.malloc size).2 = none) : mmMalloc h size = some (h, 0) := by
  rw [mmMalloc, R.layout.ensureInit_eq]
  by_cases hz : size = 0
  · simp [hz]
  · simp only [if_neg hz, adjustedSize_eq_roundUp hsize, findFit_eq R]
    rw [NextFit.malloc, if_neg hz] at hnone
    cases hs : a.search (roundUp size) with
    | some o => simp [hs] at hnone
    | none =>
        simp only [hs] at hnone ⊢
        split at hnone
        next => simp at hnone
        next hroom =>
          have hfit := mt (chunk_fits_iff R).mp hroom
          simp only [ne_eq, not_true_eq_false, if_false, extendsize_eq]
          rw [extendHeap_of_not_fits (chunk_lt hsize) (by omega)]
          simp

/-- The returned block is placed and represented; nobody else's bytes change. -/
theorem mmMalloc_of_some {o : Nat} (R : Represents h a) (hsize : size + 15 < 2 ^ 32)
    (hsome : (a.malloc size).2 = some o) :
    ∃ h', mmMalloc h size = some (h', h.memStartBrk + o) ∧ Represents h' (a.malloc size).1 ∧
      h'.memStartBrk = h.memStartBrk ∧ KeepsAllocated h.memStartBrk a.blocks h.mem h'.mem := by
  have hz : size ≠ 0 := by
    rintro rfl
    simp [NextFit.malloc] at hsome
  rw [mmMalloc, R.layout.ensureInit_eq]
  simp only [if_neg hz, adjustedSize_eq_roundUp hsize, findFit_eq R]
  rw [NextFit.malloc, if_neg hz] at hsome ⊢
  cases hs : a.search (roundUp size) with
  | some p =>
      -- a fit: the cursor moves to the block, which is then placed
      simp only [hs] at hsome ⊢
      obtain rfl := Option.some.inj hsome
      obtain ⟨b, hb, hfree, hfit⟩ := NextFit.search_some hs
      obtain ⟨pre, post, hblocks, ho⟩ := startsAt_iff_exists_append.mp hb
      have hp : h.memStartBrk + p ≠ 0 := by
        have := hb.bounds.1
        unfold firstOffset at this
        omega
      have Rc : Represents (cursorAt h p) { a with cursor := p } :=
        ⟨R.layout.withCursor _, rfl, R.valid.separated, Or.inr ⟨b, hb⟩⟩
      obtain ⟨m, hm, Rm, hkeep⟩ :=
        represents_place (w := Block.request size) Rc hblocks ho hfree hfit
      refine ⟨_, ?_, Rm, rfl, hkeep⟩
      rw [if_pos hp]
      exact congrArg (fun g => some (g, h.memStartBrk + p)) hm
  | none =>
      -- no fit: the heap grows by a chunk and the block is placed at its start
      simp only [hs] at hsome ⊢
      split at hsome
      next hroom =>
        simp only [if_pos hroom]
        obtain ⟨pre, d, hblocks, hfree, hle, ho⟩ :=
          NextFit.grow_last a (Block.chunk_alloc size)
        obtain ⟨g, heq, Rg, hstart, hkeep⟩ :=
          extendHeap_of_fits R (Block.chunk_alloc size) ((chunk_fits_iff R).mpr hroom)
        rw [Option.some.injEq] at hsome
        rw [hsome] at heq ho ⊢
        have hdfit : (Block.request size).size ≤ d.size := by
          rw [Block.chunk_size] at hle
          rw [Block.request_size]
          omega
        obtain ⟨m, hm, Rm, hkeep'⟩ := represents_place Rg hblocks ho hfree hdfit
        have hp : h.memStartBrk + o ≠ 0 := by
          unfold firstOffset at ho
          omega
        refine ⟨_, ?_, Rm, hstart, hkeep.trans ?_⟩
        · simp only [ne_eq, not_true_eq_false, if_false, extendsize_eq, heq, if_neg hp]
          have hm' : place g (h.memStartBrk + o) (roundUp size) = { g with mem := m } := by
            rw [← hstart]
            exact hm
          rw [hm']
        · rw [hstart] at hkeep'
          exact hkeep'.congr fun p n => (NextFit.alloc_grow (Block.chunk_alloc size) p n).mpr
      next => simp at hsome

end Malloc

/-! ## `mm_free` -/

/-- Every allocated block other than the one at `o` keeps its bytes. -/
def KeepsOthers (start : Nat) (a : NextFit) (o : Nat) (m m' : Memory) : Prop :=
  ∀ p n, a.Alloc p n → p ≠ o →
    ∀ x, start + p ≤ x + 4 → x + 4 < start + p + n → m' x = m x

theorem KeepsOthers.trans {start o : Nat} {m m' m'' : Memory} (h : KeepsOthers start a o m m')
    (h' : KeepsOthers start a o m' m'') : KeepsOthers start a o m m'' :=
  fun p n hp hne x hlo hhi => (h' p n hp hne x hlo hhi).trans (h p n hp hne x hlo hhi)

/-- Freeing changes a bit, so boundaries stay where they are. -/
theorem onBoundary_freed {pre post : List Block} {b : Block} {c : Nat}
    (h : OnBoundary (pre ++ b :: post) c) : OnBoundary (pre ++ b.freed :: post) c := by
  refine h.imp_right fun ⟨d, hd⟩ => ?_
  rw [startsAt_append, startsAt_cons] at hd
  simp only [startsAt_append, startsAt_cons, Block.freed_size]
  rcases hd with hd | ⟨hc, -⟩ | hd
  · exact ⟨d, Or.inl hd⟩
  · exact ⟨b.freed, Or.inr (Or.inl ⟨hc, rfl⟩)⟩
  · exact ⟨d, Or.inr (Or.inr hd)⟩

theorem mmFree_refines {o n : Nat} (R : Represents h a) (halloc : a.Alloc o n) :
    Represents (mmFree h (h.memStartBrk + o)) (a.free o) ∧
      (mmFree h (h.memStartBrk + o)).memStartBrk = h.memStartBrk ∧
      KeepsOthers h.memStartBrk a o h.mem (mmFree h (h.memStartBrk + o)).mem := by
  obtain ⟨pre, b, post, hblocks, ho, -, -⟩ := halloc.cut
  have L := R.layout
  have hsep := R.valid.separated
  have hcur := R.valid.cursor
  rw [hblocks] at L hsep hcur
  obtain ⟨hpre, hpost⟩ := separated_split.mp hsep
  have hp : 4 ≤ h.memStartBrk + firstOffset + span pre := by
    unfold firstOffset
    omega
  have hlt : b.freed.size < 2 ^ 32 := L.size_lt
  obtain ⟨ht, hsame⟩ := tagged_put (m := h.mem) hp hlt
  -- both tags of the block rewritten, then merged with its neighbours
  have hcut : Layout h (pre ++ [b] ++ post) := by simpa using L
  have hspan : span [b.freed] = span [b] := by simp
  have hsame' := hsame
  rw [show b.freed.size = span [b.freed] by simp] at hsame'
  have L₁ := hcut.retile hspan ht hsame'
  rw [List.append_assoc, List.singleton_append] at L₁
  obtain ⟨h', heq, hco⟩ := coalesce_spec L₁ b.freed_alloc (List.IsChain.left_of_append hpre)
    hpost.tail R.cursor (onBoundary_freed hcur)
  have hfree : mmFree h (h.memStartBrk + o) = h' := by
    have hne : h.memStartBrk + firstOffset + span pre ≠ 0 := by omega
    rw [mmFree, ho, ← Nat.add_assoc, if_neg hne, L.ensureInit_eq]
    simp only [hdrp, WSIZE, L.size_eq, ← Block.freed_tag]
    rw [ftrp_put_header hlt]
    exact congrArg Prod.fst heq
  rw [hfree]
  have hblocks' := NextFit.free_blocks hblocks ho
  refine ⟨⟨?_, ?_, NextFit.free_valid R.valid hblocks ho⟩, hco.start, ?_⟩
  · rw [hblocks']
    exact hco.layout
  · have hsettle : (a.free o).cursor = settle (a.free o).blocks a.cursor := rfl
    rw [hco.cursor, hco.start, hsettle, hblocks']
  · intro p n hpn hne
    have hfreed : AllocAt firstOffset (pre ++ b.freed :: post) p n :=
      allocAt_freed_middle.mpr ⟨by rwa [NextFit.Alloc, hblocks] at hpn, ho ▸ hne⟩
    have htags : KeepsAllocated h.memStartBrk (pre ++ [b.freed] ++ post) h.mem _ :=
      keepsAllocated_of_free_run (by simp) hsame (by omega) (by simp; omega)
    rw [List.append_assoc, List.singleton_append] at htags
    exact (htags.trans hco.keeps) p n hfreed

/-! ## `mm_realloc` -/

/-- Writes inside one payload keep the representation and the other blocks. -/
theorem represents_payload {p n : Nat} {m : Memory} (R : Represents h a) (halloc : a.Alloc p n)
    (hsame : SameOutside h.mem m (h.memStartBrk + p) (h.memStartBrk + p + n - 8)) :
    Represents { h with mem := m } a ∧ KeepsOthers h.memStartBrk a p h.mem m := by
  obtain ⟨pre, b, post, hblocks, hp, -, hn⟩ := halloc.cut
  have L := R.layout
  rw [hblocks] at L
  have hcut : Layout h (pre ++ [b] ++ post) := by simpa using L
  have hmin := b.minimum
  have hoff : firstOffset = 16 := rfl
  have htags : Tiled m (h.memStartBrk + firstOffset + span pre) [b] := by
    refine ⟨?_, ?_, trivial⟩
    · rw [← L.tags.1]
      exact hsame.readWord_eq (by omega)
    · rw [← L.tags.2.1]
      exact hsame.readWord_eq (by omega)
  have hframe : SameOutside h.mem m (h.memStartBrk + firstOffset + span pre - 4)
      (h.memStartBrk + firstOffset + span pre + span [b] - 4) :=
    hsame.mono (by omega) (by simp; omega)
  refine ⟨⟨?_, R.cursor, R.valid⟩, ?_⟩
  · have := hcut.retile rfl htags hframe
    rwa [List.append_assoc, List.singleton_append, ← hblocks] at this
  · intro q k hq hne x hlo hhi
    have := AllocAt.disjoint hq halloc hne
    exact hsame x (by omega)

theorem copyLength_le (h : Heap) (ptr size : Nat) : copyLength h ptr size ≤ size := by
  unfold copyLength
  dsimp only
  split <;> omega

/-- The bytes that `mm_realloc` writes lie inside the new payload. -/
theorem reallocCopy_sameOutside (h : Heap) (newptr ptr : Nat) {size n : Nat}
    (hn : size + 8 ≤ n) :
    SameOutside h.mem (reallocCopy h newptr ptr size).mem newptr (newptr + n - 8) := by
  have hle := copyLength_le h ptr size
  exact (sameOutside_copyBytes h.mem newptr ptr _).mono (Nat.le_refl _) (by omega)

/-- The heap `g` between the call of `mm_malloc` and the copy. -/
structure Reallocating (h : Heap) (a : NextFit) (size p : Nat) (g : Heap) (b : NextFit)
    (k : Nat) : Prop where
  call : mmMalloc h size = some (g, h.memStartBrk + p)
  represents : Represents g b
  start : g.memStartBrk = h.memStartBrk
  keeps : KeepsAllocated h.memStartBrk a.blocks h.mem g.mem
  room : size + 8 ≤ k
  fresh : ∀ n, ¬ a.Alloc p n
  alloc : ∀ q n, b.Alloc q n ↔ a.Alloc q n ∨ (q = p ∧ n = k)

theorem reallocating_of_some {size p : Nat} {b : NextFit} (R : Represents h a)
    (hsize : size + 15 < 2 ^ 32) (hm : a.malloc size = (b, some p)) :
    ∃ g k, Reallocating h a size p g b k := by
  have hserved := NextFit.malloc_some R.valid hm
  obtain ⟨k, hk, hallocs⟩ := hserved.alloc
  obtain ⟨g, hg, Rg, hstart, hkeep⟩ := mmMalloc_of_some R hsize (by rw [hm])
  rw [hm] at Rg
  exact ⟨g, k, hg, Rg, hstart, hkeep, hk, hserved.fresh, hallocs⟩

section Reallocating

variable {size p k o n : Nat} {g : Heap} {b : NextFit}

theorem Reallocating.new (S : Reallocating h a size p g b k) : b.Alloc p k :=
  (S.alloc p k).mpr (Or.inr ⟨rfl, rfl⟩)

theorem Reallocating.old (S : Reallocating h a size p g b k) (halloc : a.Alloc o n) :
    b.Alloc o n :=
  (S.alloc o n).mpr (Or.inl halloc)

theorem Reallocating.ne (S : Reallocating h a size p g b k) (halloc : a.Alloc o n) : o ≠ p :=
  fun heq => S.fresh n (heq ▸ halloc)

/-- The copy writes into the new payload, so the heap stays represented. -/
theorem Reallocating.copied (S : Reallocating h a size p g b k) (ptr : Nat) :
    Represents (reallocCopy g (h.memStartBrk + p) ptr size) b ∧
      KeepsOthers h.memStartBrk b p g.mem
        (reallocCopy g (h.memStartBrk + p) ptr size).mem := by
  have hcopy := reallocCopy_sameOutside g (h.memStartBrk + p) ptr S.room
  rw [← S.start] at hcopy ⊢
  exact represents_payload S.represents S.new hcopy

theorem Reallocating.result (S : Reallocating h a size p g b k) (halloc : a.Alloc o n)
    (hpos : size ≠ 0) :
    mmRealloc h (h.memStartBrk + o) size =
      some (mmFree (reallocCopy g (h.memStartBrk + p) (h.memStartBrk + o) size)
        (h.memStartBrk + o), h.memStartBrk + p) := by
  have hold := AllocAt.bounds halloc
  have hnew := AllocAt.bounds S.new
  unfold firstOffset at hold hnew
  rw [mmRealloc, if_neg hpos, if_neg (by omega), S.call]
  exact if_neg (by omega)

theorem Reallocating.freed (S : Reallocating h a size p g b k) (halloc : a.Alloc o n) :
    let h' := mmFree (reallocCopy g (h.memStartBrk + p) (h.memStartBrk + o) size)
      (h.memStartBrk + o)
    Represents h' (b.free o) ∧ h'.memStartBrk = h.memStartBrk ∧
      KeepsOthers h.memStartBrk b o
        (reallocCopy g (h.memStartBrk + p) (h.memStartBrk + o) size).mem h'.mem := by
  obtain ⟨Rc, -⟩ := S.copied (h.memStartBrk + o)
  have hfree := mmFree_refines Rc (S.old halloc)
  have hstart : (reallocCopy g (h.memStartBrk + p) (h.memStartBrk + o) size).memStartBrk =
      h.memStartBrk := S.start
  rw [hstart] at hfree
  exact hfree

end Reallocating

theorem mmRealloc_refines {o n size : Nat} (R : Represents h a) (halloc : a.Alloc o n)
    (hsize : size + 15 < 2 ^ 32) :
    ∃ h', mmRealloc h (h.memStartBrk + o) size =
        some (h', pointer h.memStartBrk (a.realloc o size).2) ∧
      Represents h' (a.realloc o size).1 ∧ h'.memStartBrk = h.memStartBrk ∧
      KeepsOthers h.memStartBrk a o h.mem h'.mem := by
  by_cases hz : size = 0
  · obtain ⟨Rf, hstart, hkeep⟩ := mmFree_refines R halloc
    rw [mmRealloc, if_pos hz, NextFit.realloc, if_pos hz]
    exact ⟨_, rfl, Rf, hstart, hkeep⟩
  · rw [NextFit.realloc, if_neg hz]
    rcases hm : a.malloc size with ⟨b, _ | p⟩
    · have hne : h.memStartBrk + o ≠ 0 := by
        have := AllocAt.bounds halloc
        unfold firstOffset at this
        omega
      obtain rfl := NextFit.malloc_none hm
      rw [mmRealloc, if_neg hz, if_neg hne, mmMalloc_of_none R hsize (by rw [hm])]
      exact ⟨h, rfl, R, rfl, fun _ _ _ _ _ _ _ => rfl⟩
    · obtain ⟨g, k, S⟩ := reallocating_of_some R hsize hm
      obtain ⟨-, hkeepc⟩ := S.copied (h.memStartBrk + o)
      obtain ⟨Rf, hstart, hkeepf⟩ := S.freed halloc
      refine ⟨_, S.result halloc hz, Rf, hstart, ?_⟩
      -- a block that was there before the call is neither the new one nor the old one
      intro q j hq hne x hlo hhi
      rw [← S.keeps q j hq x hlo hhi]
      exact (hkeepf q j (S.old hq) hne x hlo hhi).trans
        (hkeepc q j (S.old hq) (S.ne hq) x hlo hhi)

/-! ## `mm_init` -/

theorem grow_empty :
    (⟨[], prologueOffset⟩ : NextFit).grow Block.first = NextFit.initial := by
  rw [NextFit.grow, settle, if_pos (by decide)]
  rfl

/-- The four words that `mm_init` writes before it extends the heap. -/
def prologueTags (m : Memory) (p : Nat) : Memory :=
  put (put (put (put m p 0) (p + 1 * WSIZE) (pack DSIZE 1)) (p + 2 * WSIZE) (pack DSIZE 1))
    (p + 3 * WSIZE) (pack 0 1)

theorem mmInit_of_extend {g h' : Heap} {p bp : Nat}
    (hsbrk : memSbrk h (toInt (4 * WSIZE)) = (g, some p))
    (hext : extendHeap { g with
      mem := prologueTags g.mem p, heapListp := p + 2 * WSIZE, nextFitPointer := p + 2 * WSIZE }
      (CHUNKSIZE / WSIZE) = (h', bp))
    (hbp : bp ≠ 0) : mmInit h = (h', 0) := by
  -- `extend_heap` stays a name here: the check of the next steps would evaluate it
  obtain ⟨extend, hextend⟩ : ∃ extend, extend = extendHeap := ⟨_, rfl⟩
  unfold mmInit
  unfold prologueTags at hext
  rw [hsbrk]
  rw [← hextend] at hext ⊢
  clear hextend
  dsimp only
  rw [hext]
  exact if_neg hbp

/-- The heap after the prologue and the epilogue are written, with no block yet. -/
theorem prologue_represents {g : Heap} (halign : g.memStartBrk % 8 = 0)
    (hmax : g.memMaxAddr = g.memStartBrk + MAX_HEAP) (haddr : g.memMaxAddr < 2 ^ 32)
    (hbrk : g.memBrk = g.memStartBrk + 16) :
    Represents { g with
      mem := prologueTags g.mem g.memStartBrk, heapListp := g.memStartBrk + 2 * WSIZE,
      nextFitPointer := g.memStartBrk + 2 * WSIZE } ⟨[], prologueOffset⟩ := by
  refine ⟨⟨halign, hmax, haddr, rfl, ?_, ?_, tiled_nil _ _, ?_, ?_, ?_⟩, rfl,
    ⟨separated_nil, Or.inl rfl⟩⟩
  · change get (prologueTags g.mem g.memStartBrk) (g.memStartBrk + 4) = _
    unfold prologueTags WSIZE
    rw [get_put_of_disjoint (by omega), get_put_of_disjoint (by omega), get_put_same (by decide)]
  · change get (prologueTags g.mem g.memStartBrk) (g.memStartBrk + 8) = _
    unfold prologueTags WSIZE
    rw [get_put_of_disjoint (by omega), get_put_same (by decide)]
  · rw [span_nil]
    exact hbrk
  · unfold MAX_HEAP at hmax
    dsimp only
    omega
  · change get (prologueTags g.mem g.memStartBrk) (g.memBrk - 4) = _
    unfold prologueTags WSIZE
    rw [show g.memBrk - 4 = g.memStartBrk + 3 * 4 by omega, get_put_same (by decide)]

/-- `mm_init` on an empty break, whatever the memory and the globals held. -/
theorem mmInit_represents (halign : h.memStartBrk % 8 = 0)
    (hmax : h.memMaxAddr = h.memStartBrk + MAX_HEAP) (haddr : h.memMaxAddr < 2 ^ 32) :
    (mmInit (memResetBrk h)).2 = 0 ∧ Represents (mmInit (memResetBrk h)).1 NextFit.initial ∧
      (mmInit (memResetBrk h)).1.memStartBrk = h.memStartBrk := by
  have hmax' := hmax
  unfold MAX_HEAP at hmax'
  have hsbrk : memSbrk (memResetBrk h) (toInt (4 * WSIZE)) =
      ({ h with memBrk := h.memStartBrk + 4 * WSIZE }, some h.memStartBrk) :=
    memSbrk_of_fits (by decide) (by unfold WSIZE memResetBrk; dsimp only; omega)
  have R := prologue_represents (g := { h with memBrk := h.memStartBrk + 4 * WSIZE })
    halign hmax haddr rfl
  have hsize : Block.first.size = CHUNKSIZE := rfl
  obtain ⟨h', heq, R', hstart, -⟩ := extendHeap_of_fits (c := Block.first) R rfl (by
    rw [hsize]
    unfold CHUNKSIZE WSIZE
    dsimp only
    omega)
  rw [hsize, grow_empty] at heq
  rw [grow_empty] at R'
  have hbp : h.memStartBrk + startOf Block.size firstOffset NextFit.initial.blocks
      (⟨[], prologueOffset⟩ : NextFit).brk ≠ 0 := by
    rw [show startOf Block.size firstOffset NextFit.initial.blocks
      (⟨[], prologueOffset⟩ : NextFit).brk = 16 by decide]
    omega
  rw [mmInit_of_extend hsbrk heq hbp]
  exact ⟨rfl, R', hstart⟩

end CompOrg.Malloc
