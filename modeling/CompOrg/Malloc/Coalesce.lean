import CompOrg.Malloc.Layout

/-! # `coalesce` computes the maximal merge

The four cases of `coalesce` write different tags in different orders. In each of
them the tags end up describing `coalesceAll` of the block list, the cursor ends
up at the start of the block that covers it, and no byte of an allocated block
changes.
-/

namespace CompOrg.Malloc

open Memory Segments

/-- The effect of `coalesce` on a heap laid out as `bs`, with the cursor at
offset `c`. -/
structure Coalesced (h h' : Heap) (bs : List Block) (c : Nat) : Prop where
  layout : Layout h' (coalesceAll bs)
  cursor : h'.nextFitPointer = h.memStartBrk + settle (coalesceAll bs) c
  start : h'.memStartBrk = h.memStartBrk
  keeps : KeepsAllocated h.memStartBrk bs h.mem h'.mem

section Cursor

variable {pre mid post : List Block} {d : Block} {c : Nat}

/-- After a merge an old boundary is a boundary still, or inside the merged block. -/
theorem onBoundary_merge (hd : d.size = span mid) (h : OnBoundary (pre ++ mid ++ post) c) :
    OnBoundary (pre ++ d :: post) c ∨
      firstOffset + span pre ≤ c ∧ c < firstOffset + span pre + d.size := by
  rcases h with h | ⟨b, hb⟩
  · exact Or.inl (Or.inl h)
  · simp only [startsAt_append, extent_append, extent_size] at hb
    rcases hb with (hb | hb) | hb
    · exact Or.inl (Or.inr ⟨b, startsAt_append.mpr (Or.inl hb)⟩)
    · have := startsAt_in_span hb
      exact Or.inr (by omega)
    · refine Or.inl (Or.inr ⟨b, startsAt_append.mpr (Or.inr (Or.inr ?_))⟩)
      rwa [extent_size, hd, Nat.add_assoc]

variable {h : Heap}

theorem settleCursor_eq (L : Layout h (pre ++ d :: post))
    (hc : h.nextFitPointer = h.memStartBrk + c)
    (hcov : OnBoundary (pre ++ d :: post) c ∨
      firstOffset + span pre ≤ c ∧ c < firstOffset + span pre + d.size) :
    settleCursor h (h.memStartBrk + firstOffset + span pre) =
      ({ h with nextFitPointer := h.memStartBrk + settle (pre ++ d :: post) c },
        h.memStartBrk + firstOffset + span pre) := by
  have hstart : StartsAt Block.size firstOffset (pre ++ d :: post) (firstOffset + span pre) d :=
    startsAt_middle pre post
  have hmin := d.minimum
  rw [settleCursor, L.nextBlkp_eq, hc]
  split
  next hin =>
    rw [NextFit.settle_of_covered hstart (by omega) (by omega), Nat.add_assoc]
  next hout =>
    have hbound : OnBoundary (pre ++ d :: post) c := by
      rcases hcov with hb | hb
      · exact hb
      · have : c = firstOffset + span pre := by omega
        exact this ▸ Or.inr ⟨d, hstart⟩
    rw [NextFit.settle_of_onBoundary hbound, ← hc]

end Cursor

section Merge

variable {h : Heap} {pre mid post : List Block} {d : Block} {c : Nat} {m : Memory}

theorem coalesced_of_merge (L : Layout h (pre ++ mid ++ post)) (hd : d.size = span mid)
    (hfree : ∀ b ∈ mid, b.alloc = false)
    (hmerge : coalesceAll (pre ++ mid ++ post) = pre ++ d :: post)
    (ht : Tiled m (h.memStartBrk + firstOffset + span pre) [d] ∧
      SameOutside h.mem m (h.memStartBrk + firstOffset + span pre - 4)
        (h.memStartBrk + firstOffset + span pre + d.size - 4))
    (hc : h.nextFitPointer = h.memStartBrk + c) (hb : OnBoundary (pre ++ mid ++ post) c) :
    ∃ h', settleCursor { h with mem := m } (h.memStartBrk + firstOffset + span pre) =
        (h', h.memStartBrk + firstOffset + span pre) ∧
      Coalesced h h' (pre ++ mid ++ post) c := by
  have hone : Layout { h with mem := m } (pre ++ [d] ++ post) :=
    L.retile (by simpa using hd) ht.1 (by simpa using ht.2)
  have L' : Layout { h with mem := m } (pre ++ d :: post) := by simpa using hone
  refine ⟨_, settleCursor_eq L' hc (onBoundary_merge hd hb), ?_, ?_, rfl, ?_⟩
  · rw [hmerge]
    exact L'.withCursor _
  · rw [hmerge]
  · have hoff : firstOffset = 16 := rfl
    exact keepsAllocated_of_free_run hfree ht.2 (by omega) (by omega)

end Merge

section Cases

variable {h : Heap} {pre post : List Block} {b q n : Block} {c : Nat}

theorem coalesce_case1 {bp : Nat}
    (hprev : getAlloc h.mem (ftrp h.mem (prevBlkp h.mem bp)) ≠ 0)
    (hnext : getAlloc h.mem (hdrp (nextBlkp h.mem bp)) ≠ 0) : coalesce h bp = (h, bp) := by
  rw [coalesce, if_pos ⟨hprev, hnext⟩]

/-- The next block is free: header, then the footer the new header points at. -/
theorem coalesce_case2 (L : Layout h (pre ++ b :: n :: post)) (hb : b.alloc = false)
    (hn : n.alloc = false) (hpre : Separated (pre ++ [b])) (hpost : Separated (n :: post))
    (hc : h.nextFitPointer = h.memStartBrk + c) (hbd : OnBoundary (pre ++ b :: n :: post) c)
    (hprev : getAlloc h.mem (ftrp h.mem
      (prevBlkp h.mem (h.memStartBrk + firstOffset + span pre))) ≠ 0)
    (hnext : getAlloc h.mem (hdrp
      (nextBlkp h.mem (h.memStartBrk + firstOffset + span pre))) = 0) :
    ∃ h', coalesce h (h.memStartBrk + firstOffset + span pre) =
        (h', h.memStartBrk + firstOffset + span pre) ∧
      Coalesced h h' (pre ++ b :: n :: post) c := by
  have hlt := L.span_lt
  simp only [span_append, span_cons] at hlt
  have hd : (b.merge n).size < 2 ^ 32 := by
    rw [Block.merge_size]
    omega
  have hsize : sizeT (b.size + n.size) = (b.merge n).size := sizeT_of_lt hd
  have hp : 4 ≤ h.memStartBrk + firstOffset + span pre := by
    rw [firstOffset]
    omega
  have htag : pack (b.merge n).size 0 = (b.merge n).tag := (Block.tag_eq_pack_zero rfl).symm
  rw [coalesce, if_neg (by simp [hnext]), if_pos ⟨hprev, hnext⟩]
  simp only [hdrp, WSIZE, L.nextBlkp_eq, L.size_eq, L.size_eq_next, hsize, htag]
  rw [ftrp_put_header hd]
  have hcut : pre ++ b :: n :: post = pre ++ [b, n] ++ post := by simp
  rw [hcut] at L hbd ⊢
  refine coalesced_of_merge L (by simp) (by simp [hb, hn]) ?_ (tagged_put hp hd) hc hbd
  rw [← hcut]
  exact coalesceAll_pair hb hn hpre hpost

/-- The previous block is free: the old footer, then the header found through the
previous footer. -/
theorem coalesce_case3 (L : Layout h (pre ++ q :: b :: post)) (hq : q.alloc = false)
    (hb : b.alloc = false) (hpre : Separated (pre ++ [q])) (hpost : Separated (b :: post))
    (hc : h.nextFitPointer = h.memStartBrk + c) (hbd : OnBoundary (pre ++ q :: b :: post) c)
    (hprev : getAlloc h.mem (ftrp h.mem
      (prevBlkp h.mem (h.memStartBrk + firstOffset + (span pre + q.size)))) = 0)
    (hnext : getAlloc h.mem (hdrp
      (nextBlkp h.mem (h.memStartBrk + firstOffset + (span pre + q.size)))) ≠ 0) :
    ∃ h', coalesce h (h.memStartBrk + firstOffset + (span pre + q.size)) =
        (h', h.memStartBrk + firstOffset + span pre) ∧
      Coalesced h h' (pre ++ q :: b :: post) c := by
  have hlt := L.span_lt
  simp only [span_append, span_cons] at hlt
  have hd : (q.merge b).size < 2 ^ 32 := by
    rw [Block.merge_size]
    omega
  have hsize : sizeT (b.size + q.size) = (q.merge b).size := by
    rw [Nat.add_comm]
    exact sizeT_of_lt hd
  have hp : 4 ≤ h.memStartBrk + firstOffset + span pre := by
    rw [firstOffset]
    omega
  have htag : pack (q.merge b).size 0 = (q.merge b).tag := (Block.tag_eq_pack_zero rfl).symm
  have hfoot : ftrp h.mem (h.memStartBrk + firstOffset + (span pre + q.size)) =
      h.memStartBrk + firstOffset + span pre + (q.merge b).size - 8 := L.ftrp_eq_next
  have hqmin := q.minimum
  have hbmin := b.minimum
  rw [coalesce, if_neg (by simp [hprev]), if_neg (by simp [hprev]), if_pos ⟨hprev, hnext⟩]
  simp only [hdrp, WSIZE, L.prevBlkp_eq, L.size_eq, L.size_eq_next, hsize, htag, hfoot]
  rw [prevBlkp_put (by rw [Block.merge_size]; omega), L.prevBlkp_eq, prevBlkp_put (by omega),
    prevBlkp_put (by rw [Block.merge_size]; omega), L.prevBlkp_eq]
  have hcut : pre ++ q :: b :: post = pre ++ [q, b] ++ post := by simp
  rw [hcut] at L hbd ⊢
  refine coalesced_of_merge L (by simp) (by simp [hq, hb]) ?_ (tagged_put_swap hp hd) hc hbd
  rw [← hcut]
  exact coalesceAll_pair hq hb hpre hpost

/-- Both neighbours are free: the header of the previous block, then the footer of
the next one. -/
theorem coalesce_case4 (L : Layout h (pre ++ q :: b :: n :: post)) (hq : q.alloc = false)
    (hb : b.alloc = false) (hn : n.alloc = false) (hpre : Separated (pre ++ [q]))
    (hpost : Separated (n :: post)) (hc : h.nextFitPointer = h.memStartBrk + c)
    (hbd : OnBoundary (pre ++ q :: b :: n :: post) c)
    (hprev : getAlloc h.mem (ftrp h.mem
      (prevBlkp h.mem (h.memStartBrk + firstOffset + (span pre + q.size)))) = 0)
    (hnext : getAlloc h.mem (hdrp
      (nextBlkp h.mem (h.memStartBrk + firstOffset + (span pre + q.size)))) = 0) :
    ∃ h', coalesce h (h.memStartBrk + firstOffset + (span pre + q.size)) =
        (h', h.memStartBrk + firstOffset + span pre) ∧
      Coalesced h h' (pre ++ q :: b :: n :: post) c := by
  have hlt := L.span_lt
  simp only [span_append, span_cons] at hlt
  let d := (q.merge b).merge n
  have hdsize : d.size = q.size + b.size + n.size := rfl
  have hd : d.size < 2 ^ 32 := by omega
  have hp : 4 ≤ h.memStartBrk + firstOffset + span pre := by
    rw [firstOffset]
    omega
  have htag : pack d.size 0 = d.tag := (Block.tag_eq_pack_zero rfl).symm
  have L₂ : Layout h ((pre ++ [q]) ++ b :: n :: post) := L.advance
  have hnext' := L₂.nextBlkp_eq
  have hfoot : ftrp h.mem (h.memStartBrk + firstOffset + (span pre + q.size + b.size)) =
      h.memStartBrk + firstOffset + span pre + d.size - 8 := by
    have := L₂.ftrp_eq_next
    simp only [span_append, span_cons, span_nil, Nat.add_zero] at this
    omega
  have hnsize : getSize h.mem (h.memStartBrk + firstOffset + span pre + d.size - 8) = n.size := by
    have := getSize_of_tag L₂.advance.tags.2.1 L₂.advance.size_lt
    simp only [span_append, span_cons, span_nil, Nat.add_zero] at this
    rwa [show h.memStartBrk + firstOffset + span pre + d.size - 8 =
      h.memStartBrk + firstOffset + (span pre + q.size + b.size) + n.size - 8 by omega]
  simp only [span_append, span_cons, span_nil, Nat.add_zero] at hnext'
  have hsize : sizeT (b.size + (q.size + n.size)) = d.size := by
    rw [show b.size + (q.size + n.size) = d.size by omega]
    exact sizeT_of_lt hd
  have hqmin := q.minimum
  have hbmin := b.minimum
  rw [coalesce, if_neg (by simp [hprev]), if_neg (by simp [hprev]), if_neg (by simp [hnext])]
  simp only [hdrp, WSIZE, L.prevBlkp_eq, L.size_eq, L.size_eq_next, hnext', hfoot, hnsize, hsize,
    htag]
  rw [nextBlkp_put (by omega), hnext', ftrp_put (by omega), hfoot, prevBlkp_put (by omega),
    prevBlkp_put (by omega), L.prevBlkp_eq]
  have hcut : pre ++ q :: b :: n :: post = pre ++ [q, b, n] ++ post := by simp
  rw [hcut] at L hbd ⊢
  refine coalesced_of_merge L (by simp [hdsize, Nat.add_assoc]) (by simp [hq, hb, hn]) ?_
    (tagged_put hp hd) hc hbd
  rw [← hcut]
  exact coalesceAll_triple hq hb hn hpre hpost

/-! ## The four cases together -/

theorem separated_concat_of_last {d : Block} (hs : Separated pre)
    (hlast : ¬ ∃ pre' q, pre = pre' ++ [q] ∧ q.alloc = false) : Separated (pre ++ [d]) := by
  rcases List.eq_nil_or_concat pre with rfl | ⟨pre', q, rfl⟩
  · simp
  · rw [List.concat_eq_append] at hs hlast ⊢
    have hq : q.alloc = true := by
      by_contra hne
      exact hlast ⟨pre', q, rfl, by simpa using hne⟩
    rw [List.append_assoc]
    exact separated_append_cons_cons.mpr ⟨hs, Or.inl hq, separated_singleton d⟩

theorem separated_cons_of_head {d : Block} (hs : Separated post)
    (hhead : ¬ ∃ n post', post = n :: post' ∧ n.alloc = false) : Separated (d :: post) := by
  cases post with
  | nil => simp
  | cons n post' =>
      have hn : n.alloc = true := by
        by_contra hne
        exact hhead ⟨n, post', rfl, by simpa using hne⟩
      exact separated_cons_cons.mpr ⟨Or.inr hn, hs⟩

theorem startOf_merged {d : Block} {p : Nat} (hlo : firstOffset + span pre ≤ p)
    (hhi : p < firstOffset + span pre + d.size) :
    startOf Block.size firstOffset (pre ++ d :: post) p = firstOffset + span pre :=
  StartsAt.startOf_eq (startsAt_middle pre post) hlo hhi

/-- `coalesce` on a free block whose neighbours were merged before it was freed. -/
theorem coalesce_spec (L : Layout h (pre ++ b :: post)) (hb : b.alloc = false)
    (hpre : Separated pre) (hpost : Separated post)
    (hc : h.nextFitPointer = h.memStartBrk + c) (hbd : OnBoundary (pre ++ b :: post) c) :
    ∃ h', coalesce h (h.memStartBrk + firstOffset + span pre) =
        (h', h.memStartBrk + startOf Block.size firstOffset (coalesceAll (pre ++ b :: post))
          (firstOffset + span pre)) ∧
      Coalesced h h' (pre ++ b :: post) c := by
  have hbpos := b.size_pos
  have hprev := L.prevAlloc_eq_zero_iff
  have hnext := L.nextAlloc_eq_zero_iff
  by_cases hp : ∃ pre' q, pre = pre' ++ [q] ∧ q.alloc = false
  · have hp0 := hprev.mpr hp
    obtain ⟨pre, q, rfl, hq⟩ := hp
    have hcat : ∀ ys, pre ++ [q] ++ b :: ys = pre ++ q :: b :: ys := by simp
    simp only [span_append, span_cons, span_nil, Nat.add_zero, hcat] at L hbd hp0 hnext ⊢
    by_cases hn : ∃ n post', post = n :: post' ∧ n.alloc = false
    · -- both neighbours free
      have hn0 := hnext.mpr hn
      obtain ⟨n, post, rfl, hnf⟩ := hn
      obtain ⟨h', heq, hco⟩ := coalesce_case4 L hq hb hnf hpre hpost hc hbd hp0 hn0
      refine ⟨h', ?_, hco⟩
      rw [heq, coalesceAll_triple hq hb hnf hpre hpost,
        startOf_merged (by omega) (by rw [Block.merge_size, Block.merge_size]; omega),
        Nat.add_assoc]
    · -- only the previous block free
      have hpost' := separated_cons_of_head (d := b) hpost hn
      obtain ⟨h', heq, hco⟩ :=
        coalesce_case3 L hq hb hpre hpost' hc hbd hp0 (mt hnext.mp hn)
      refine ⟨h', ?_, hco⟩
      rw [heq, coalesceAll_pair hq hb hpre hpost',
        startOf_merged (by omega) (by rw [Block.merge_size]; omega), Nat.add_assoc]
  · have hpre' := separated_concat_of_last (d := b) hpre hp
    by_cases hn : ∃ n post', post = n :: post' ∧ n.alloc = false
    · -- only the next block free
      have hn0 := hnext.mpr hn
      obtain ⟨n, post, rfl, hnf⟩ := hn
      obtain ⟨h', heq, hco⟩ :=
        coalesce_case2 L hb hnf hpre' hpost hc hbd (mt hprev.mp hp) hn0
      refine ⟨h', ?_, hco⟩
      rw [heq, coalesceAll_pair hb hnf hpre' hpost,
        startOf_merged (Nat.le_refl _) (by rw [Block.merge_size]; omega), Nat.add_assoc]
    · -- nothing to merge
      have hall : coalesceAll (pre ++ b :: post) = pre ++ b :: post :=
        coalesceAll_of_separated
          (separated_split.mpr ⟨hpre', separated_cons_of_head hpost hn⟩)
      refine ⟨h, ?_, ?_⟩
      · rw [coalesce_case1 (mt hprev.mp hp) (mt hnext.mp hn), hall,
          startOf_merged (Nat.le_refl _) (by omega), Nat.add_assoc]
      · refine ⟨by rwa [hall], ?_, rfl, KeepsAllocated.refl _ _ _⟩
        rw [hall, NextFit.settle_of_onBoundary hbd, hc]

end Cases

end CompOrg.Malloc
