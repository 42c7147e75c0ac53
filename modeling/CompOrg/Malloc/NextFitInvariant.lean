import CompOrg.Malloc.NextFit

/-! # Invariants of the next-fit allocator

Every operation keeps free blocks apart and the cursor on a boundary, and
changes the set of allocated blocks by exactly the block it serves.
-/

namespace CompOrg.Malloc

open Segments

/-! ## Merging around one block -/

section Merge

variable {pre post : List Block} {q b n : Block}

theorem separated_merge_middle (hq : q.alloc = false) (hb : b.alloc = false)
    (hpre : Separated (pre ++ [q])) (hpost : Separated (b :: post)) (d : Block) :
    Separated (pre ++ d.merge b :: post) := by
  refine separated_split.mpr ⟨?_, ?_⟩
  · exact (separated_concat_congr (by rw [hq, Block.merge_alloc])).mp hpre
  · exact (separated_cons_congr (by rw [hb, Block.merge_alloc])).mp hpost

theorem mergeCons_free (hq : q.alloc = false) (hb : b.alloc = false) :
    mergeCons q (b :: post) = q.merge b :: post := by
  rw [mergeCons, if_pos ⟨hq, hb⟩]

/-- A free block merges with the free block after it. -/
theorem coalesceAll_pair (hq : q.alloc = false) (hb : b.alloc = false)
    (hpre : Separated (pre ++ [q])) (hpost : Separated (b :: post)) :
    coalesceAll (pre ++ q :: b :: post) = pre ++ q.merge b :: post := by
  have htail : coalesceAll (q :: b :: post) = q.merge b :: post := by
    change mergeCons q (coalesceAll (b :: post)) = _
    rw [coalesceAll_of_separated hpost, mergeCons_free hq hb]
  rw [coalesceAll_append, htail]
  exact foldr_mergeCons_of_separated (separated_merge_middle hq hb hpre hpost q)

/-- A free block merges with the free blocks on both sides of it. -/
theorem coalesceAll_triple (hq : q.alloc = false) (hb : b.alloc = false) (hn : n.alloc = false)
    (hpre : Separated (pre ++ [q])) (hpost : Separated (n :: post)) :
    coalesceAll (pre ++ q :: b :: n :: post) = pre ++ (q.merge b).merge n :: post := by
  have htail : coalesceAll (q :: b :: n :: post) = (q.merge b).merge n :: post := by
    change mergeCons q (mergeCons b (coalesceAll (n :: post))) = _
    rw [coalesceAll_of_separated hpost, mergeCons_free hb hn, mergeCons_free hq rfl,
      Block.merge_merge]
  rw [coalesceAll_append, htail]
  exact foldr_mergeCons_of_separated (separated_merge_middle hq hn hpre hpost (q.merge b))

/-- Whatever the blocks before it merge to, a free block at the end stays inside
one free block at the end. -/
theorem coalesceAll_concat_free (bs : List Block) {c : Block} (hc : c.alloc = false) :
    ∃ pre d, coalesceAll (bs ++ [c]) = pre ++ [d] ∧ d.alloc = false ∧ c.size ≤ d.size := by
  induction bs with
  | nil => exact ⟨[], c, rfl, hc, Nat.le_refl _⟩
  | cons b bs ih =>
      obtain ⟨pre, d, heq, hd, hle⟩ := ih
      have hstep : coalesceAll (b :: bs ++ [c]) = mergeCons b (pre ++ [d]) := by
        rw [← heq]
        rfl
      cases pre with
      | nil =>
          by_cases hb : b.alloc = false
          · exact ⟨[], b.merge d, by rw [hstep, List.nil_append, mergeCons_free hb hd]; rfl, rfl,
              by rw [Block.merge_size]; omega⟩
          · exact ⟨[b], d, by rw [hstep]; simp [mergeCons, hb], hd, hle⟩
      | cons e es =>
          by_cases hb : b.alloc = false ∧ e.alloc = false
          · exact ⟨b.merge e :: es, d, by rw [hstep]; simp [mergeCons, hb], hd, hle⟩
          · exact ⟨b :: e :: es, d, by rw [hstep]; simp [mergeCons, hb], hd, hle⟩

end Merge

namespace NextFit

/-! ## Placing -/

section Place

variable {a : NextFit} {pre post : List Block} {b w : Block} {o : Nat}

theorem place_blocks (hblocks : a.blocks = pre ++ b :: post) (ho : o = firstOffset + span pre) :
    (a.place w o).blocks = pre ++ w.split b ++ post := by
  subst ho
  rw [place, hblocks]
  exact replaceAt_middle w.split firstOffset pre post fun d _ => d.size_pos

theorem split_separated (hfree : b.alloc = false) (hs : Separated (pre ++ b :: post)) :
    Separated (pre ++ w.split b ++ post) := by
  obtain ⟨hpre, hpost⟩ := separated_split.mp hs
  have hleft : ∀ d : Block, Separated (pre ++ [d.taken]) := fun d =>
    separated_concat_of_alloc rfl (List.IsChain.left_of_append hpre)
  rw [List.append_assoc]
  unfold Block.split
  split
  next =>
    exact separated_append_cons_cons.mpr
      ⟨hleft w, Or.inl rfl, (separated_cons_congr hfree).mp hpost⟩
  next => exact separated_split.mpr ⟨hleft b, separated_cons_of_alloc rfl hpost.tail⟩

theorem split_startsAt (w b : Block) (base : Nat) :
    ∃ d, StartsAt Block.size base (w.split b) base d := by
  unfold Block.split
  split <;> exact ⟨_, Or.inl ⟨rfl, rfl⟩⟩

theorem split_onBoundary {c : Nat} (h : OnBoundary (pre ++ b :: post) c) :
    OnBoundary (pre ++ w.split b ++ post) c := by
  refine h.imp_right fun ⟨d, hd⟩ => ?_
  rw [startsAt_append, startsAt_cons] at hd
  simp only [startsAt_append, extent_append, extent_size, span_split]
  rcases hd with hd | ⟨rfl, -⟩ | hd
  · exact ⟨d, Or.inl (Or.inl hd)⟩
  · obtain ⟨e, he⟩ := split_startsAt w b (firstOffset + span pre)
    exact ⟨e, Or.inl (Or.inr he)⟩
  · exact ⟨d, Or.inr (by rwa [extent_size, Nat.add_assoc] at hd)⟩

theorem place_valid (hv : a.Valid) (hblocks : a.blocks = pre ++ b :: post)
    (ho : o = firstOffset + span pre) (hfree : b.alloc = false) : (a.place w o).Valid := by
  refine ⟨?_, ?_⟩
  · rw [place_blocks hblocks ho]
    exact split_separated hfree (hblocks ▸ hv.separated)
  · rw [place_blocks hblocks ho]
    exact split_onBoundary (hblocks ▸ hv.cursor)

end Place

/-! ## Freeing and growing -/

theorem free_blocks {a : NextFit} {pre post : List Block} {b : Block} {o : Nat}
    (hblocks : a.blocks = pre ++ b :: post) (ho : o = firstOffset + span pre) :
    (a.free o).blocks = coalesceAll (pre ++ b.freed :: post) := by
  subst ho
  have h := replaceAt_middle (b := b) (fun b => [b.freed]) firstOffset pre post
    fun d _ => d.size_pos
  rw [extent_size] at h
  rw [free, hblocks, h, List.append_assoc]
  rfl

theorem free_valid {a : NextFit} {pre post : List Block} {b : Block} {o : Nat} (hv : a.Valid)
    (hblocks : a.blocks = pre ++ b :: post) (ho : o = firstOffset + span pre) :
    (a.free o).Valid := by
  have hspan : span (a.free o).blocks = span a.blocks := by
    rw [free_blocks hblocks ho, span_coalesceAll, hblocks]
    simp
  refine ⟨separated_coalesceAll _, settle_onBoundary ?_⟩
  rw [hspan]
  exact onBoundary_range hv.cursor

theorem grow_valid {a : NextFit} (hv : a.Valid) (c : Block) : (a.grow c).Valid := by
  have hspan : span (a.grow c).blocks = span a.blocks + c.size := by
    simp [grow, span_coalesceAll]
  refine ⟨separated_coalesceAll _, settle_onBoundary ?_⟩
  rw [hspan]
  have := onBoundary_range hv.cursor
  omega

/-- The grown heap ends with a free block that has room for the new chunk. -/
theorem grow_last (a : NextFit) {c : Block} (hc : c.alloc = false) :
    ∃ pre d, (a.grow c).blocks = pre ++ [d] ∧ d.alloc = false ∧ c.size ≤ d.size ∧
      startOf Block.size firstOffset (a.grow c).blocks a.brk = firstOffset + span pre := by
  obtain ⟨pre, d, heq, hd, hle⟩ := coalesceAll_concat_free a.blocks hc
  have hspan : span pre + d.size = span a.blocks + c.size := by
    have h := span_coalesceAll (a.blocks ++ [c])
    rw [heq] at h
    simpa using h
  have hcovers : StartsAt Block.size firstOffset (a.grow c).blocks (firstOffset + span pre) d := by
    change StartsAt Block.size firstOffset (coalesceAll (a.blocks ++ [c])) _ d
    rw [heq]
    exact startsAt_middle pre []
  have := c.size_pos
  exact ⟨pre, d, heq, hd, hle,
    hcovers.startOf_eq (by unfold brk; omega) (by unfold brk; omega)⟩

/-! ## The allocated blocks -/

/-- An allocated block of `n` bytes at offset `p`. -/
def Alloc (a : NextFit) (p n : Nat) : Prop := AllocAt firstOffset a.blocks p n

theorem alloc_place {a : NextFit} {pre post : List Block} {b w : Block} {o : Nat}
    (hblocks : a.blocks = pre ++ b :: post) (ho : o = firstOffset + span pre)
    (hfree : b.alloc = false) (p n : Nat) :
    (a.place w o).Alloc p n ↔ a.Alloc p n ∨
      (p = o ∧ n = if w.size + 16 ≤ b.size then w.size else b.size) := by
  rw [Alloc, Alloc, place_blocks hblocks ho, hblocks, allocAt_split_middle hfree, ho]

theorem alloc_grow {a : NextFit} {c : Block} (hc : c.alloc = false) (p n : Nat) :
    (a.grow c).Alloc p n ↔ a.Alloc p n := by
  change AllocAt firstOffset (coalesceAll (a.blocks ++ [c])) p n ↔ _
  rw [allocAt_coalesceAll, allocAt_append, allocAt_cons]
  simp [hc, Alloc]

theorem alloc_free {a : NextFit} {pre post : List Block} {b : Block} {o : Nat}
    (hblocks : a.blocks = pre ++ b :: post) (ho : o = firstOffset + span pre) (p n : Nat) :
    (a.free o).Alloc p n ↔ a.Alloc p n ∧ p ≠ o := by
  rw [Alloc, Alloc, free_blocks hblocks ho, allocAt_coalesceAll, hblocks, allocAt_freed_middle, ho]

/-- No allocated block starts where a free one does. -/
theorem not_alloc_of_free {a : NextFit} {b : Block} {o : Nat}
    (h : StartsAt Block.size firstOffset a.blocks o b) (hfree : b.alloc = false) (n : Nat) :
    ¬ a.Alloc o n := by
  rintro ⟨c, hc, ha, -⟩
  rw [h.unique (fun d _ => d.size_pos) hc] at hfree
  simp [ha] at hfree

/-- Positions of allocated blocks, as cuts of the block list. -/
theorem Alloc.cut {a : NextFit} {o n : Nat} (h : a.Alloc o n) :
    ∃ pre b post, a.blocks = pre ++ b :: post ∧ o = firstOffset + span pre ∧ b.alloc = true ∧
      b.size = n := by
  obtain ⟨b, hb, ha, hn⟩ := h
  obtain ⟨pre, post, heq, ho⟩ := startsAt_iff_exists_append.mp hb
  exact ⟨pre, b, post, heq, ho, ha, hn⟩

/-! ## Requests -/

theorem malloc_none {a b : NextFit} {size : Nat} (h : a.malloc size = (b, none)) : b = a := by
  unfold malloc at h
  split at h
  next => simpa using (Prod.mk.inj h).1.symm
  next =>
    split at h
    next => simp at h
    next =>
      split at h
      next => simp at h
      next => simpa using (Prod.mk.inj h).1.symm

/-- What a successful request does to the blocks. -/
structure Served (a b : NextFit) (size o : Nat) : Prop where
  valid : b.Valid
  positive : size ≠ 0
  fresh : ∀ n, ¬ a.Alloc o n
  alloc : ∃ n, size + 8 ≤ n ∧ ∀ p k, b.Alloc p k ↔ a.Alloc p k ∨ (p = o ∧ k = n)

theorem served_of_place {a g : NextFit} {pre post : List Block} {b : Block} {size o : Nat}
    (hsize : size ≠ 0) (hg : g.Valid) (hsame : ∀ p n, g.Alloc p n ↔ a.Alloc p n)
    (hblocks : g.blocks = pre ++ b :: post) (ho : o = firstOffset + span pre)
    (hfree : b.alloc = false) (hfit : roundUp size ≤ b.size) :
    Served a (g.place (Block.request size) o) size o where
  valid := place_valid hg hblocks ho hfree
  positive := hsize
  fresh := by
    intro n hn
    have hstart : StartsAt Block.size firstOffset g.blocks o b :=
      startsAt_iff_exists_append.mpr ⟨pre, post, hblocks, ho⟩
    exact not_alloc_of_free hstart hfree n ((hsame o n).mpr hn)
  alloc := by
    refine ⟨if roundUp size + 16 ≤ b.size then roundUp size else b.size, ?_, fun p k => ?_⟩
    · have := add_tags_le_roundUp size
      split <;> omega
    · rw [alloc_place hblocks ho hfree, hsame, Block.request_size]

theorem served_cursor {a b : NextFit} {size o : Nat} (h : Served a b size o) :
    Served a { b with cursor := o } size o where
  valid := by
    obtain ⟨n, -, halloc⟩ := h.alloc
    obtain ⟨c, hc, -⟩ := (halloc o n).mpr (Or.inr ⟨rfl, rfl⟩)
    exact ⟨h.valid.separated, Or.inr ⟨c, hc⟩⟩
  positive := h.positive
  fresh := h.fresh
  alloc := h.alloc

theorem malloc_some {a b : NextFit} {size o : Nat} (hv : a.Valid)
    (h : a.malloc size = (b, some o)) : Served a b size o := by
  unfold malloc at h
  split at h
  next => simp at h
  next hsize =>
    split at h
    next p hp =>
      cases h
      obtain ⟨d, hd, hfree, hfit⟩ := search_some hp
      obtain ⟨pre, post, hblocks, ho⟩ := startsAt_iff_exists_append.mp hd
      exact served_cursor (served_of_place hsize hv (fun _ _ => Iff.rfl) hblocks ho hfree hfit)
    next =>
      split at h
      next =>
        cases h
        obtain ⟨pre, d, hblocks, hfree, hle, ho⟩ := grow_last a (Block.chunk_alloc size)
        refine served_of_place hsize (grow_valid hv _) (alloc_grow (Block.chunk_alloc size))
          hblocks ho hfree ?_
        rw [Block.chunk_size] at hle
        omega
      next => simp at h

theorem initial_valid : initial.Valid := ⟨separated_singleton _, Or.inl rfl⟩

end NextFit

end CompOrg.Malloc
