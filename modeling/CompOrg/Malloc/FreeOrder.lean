import CompOrg.Malloc.Entries

/-! # Frees in any order

Which of the four cases `coalesce` takes depends on what has been freed before,
but what the heap looks like in the end does not: a list without two free
neighbours is determined by its extent and its allocated blocks, and a cursor that
has been settled several times is where one settling would have put it.
-/

namespace CompOrg.Malloc

open Segments

/-! ## Lists without two free neighbours -/

section Unique

variable {base p n : Nat} {b c : Block} {bs cs : List Block}

theorem allocAt_head : AllocAt base (b :: bs) base n ↔ b.alloc = true ∧ b.size = n := by
  rw [allocAt_cons]
  constructor
  · rintro (⟨-, h⟩ | h)
    · exact h
    · have := h.bounds.1
      have := b.size_pos
      omega
  · exact fun h => Or.inl ⟨rfl, h⟩

theorem allocAt_tail :
    AllocAt (base + b.size) bs p n ↔ AllocAt base (b :: bs) p n ∧ p ≠ base := by
  rw [allocAt_cons]
  constructor
  · intro h
    have := h.bounds.1
    have := b.size_pos
    exact ⟨Or.inr h, by omega⟩
  · rintro ⟨⟨hp, -⟩ | h, hne⟩
    · exact (hne hp).elim
    · exact h

/-- A free block ends where the list ends or an allocated block starts, so no free
block of the other list reaches further. -/
theorem free_head_le (hb : b.alloc = false) (hsep : Separated (b :: bs))
    (hspan : span (b :: bs) = span (c :: cs)) (hc : c.alloc = false)
    (hsub : ∀ p n, AllocAt base (b :: bs) p n → AllocAt base (c :: cs) p n) :
    c.size ≤ b.size := by
  by_contra hlt
  cases bs with
  | nil =>
      simp only [span_cons, span_nil] at hspan
      omega
  | cons d ds =>
      have hd : d.alloc = true := by
        rcases (separated_cons_cons.mp hsep).1 with h | h
        · simp [hb] at h
        · exact h
      have hstart : AllocAt base (b :: d :: ds) (base + b.size) d.size :=
        allocAt_cons.mpr (Or.inr (allocAt_head.mpr ⟨hd, rfl⟩))
      rcases allocAt_cons.mp (hsub _ _ hstart) with ⟨-, h, -⟩ | h
      · simp [hc] at h
      · have := h.bounds.1
        omega

theorem head_eq (hb : Separated (b :: bs)) (hc : Separated (c :: cs))
    (hspan : span (b :: bs) = span (c :: cs))
    (halloc : ∀ p n, AllocAt base (b :: bs) p n ↔ AllocAt base (c :: cs) p n) : b = c := by
  cases hb' : b.alloc with
  | true =>
      have h := (halloc base b.size).mp (allocAt_head.mpr ⟨hb', rfl⟩)
      obtain ⟨hc', hsize⟩ := allocAt_head.mp h
      exact Block.ext_size_alloc hsize.symm (hb'.trans hc'.symm)
  | false =>
      cases hc' : c.alloc with
      | true =>
          have h := (halloc base c.size).mpr (allocAt_head.mpr ⟨hc', rfl⟩)
          simp [(allocAt_head.mp h).1] at hb'
      | false =>
          have hle := free_head_le hb' hb hspan hc' fun p n => (halloc p n).mp
          have hge := free_head_le hc' hc hspan.symm hb' fun p n => (halloc p n).mpr
          exact Block.ext_size_alloc (Nat.le_antisymm hge hle) (hb'.trans hc'.symm)

/-- The maximal merge is the only list with its extent and its allocated blocks. -/
theorem separated_unique (hb : Separated bs) (hc : Separated cs) (hspan : span bs = span cs)
    (halloc : ∀ p n, AllocAt base bs p n ↔ AllocAt base cs p n) : bs = cs := by
  induction bs generalizing base cs with
  | nil =>
      cases cs with
      | nil => rfl
      | cons c cs =>
          have := c.size_pos
          simp only [span_nil, span_cons] at hspan
          omega
  | cons b bs ih =>
      cases cs with
      | nil =>
          have := b.size_pos
          simp only [span_nil, span_cons] at hspan
          omega
      | cons c cs =>
          obtain rfl := head_eq hb hc hspan halloc
          have htail : ∀ p n, AllocAt (base + b.size) bs p n ↔ AllocAt (base + b.size) cs p n := by
            intro p n
            rw [allocAt_tail, allocAt_tail, halloc p n]
          simp only [span_cons] at hspan
          rw [ih hb.tail hc.tail (by omega) htail]

end Unique

/-! ## Boundaries under merging -/

section Boundaries

variable {base q : Nat} {b d : Block} {bs cs : List Block}

theorem startsAt_mergeCons (h : StartsAt Block.size base (mergeCons b bs) q d) :
    ∃ e, StartsAt Block.size base (b :: bs) q e := by
  cases bs with
  | nil => exact ⟨d, h⟩
  | cons c cs =>
      rw [mergeCons] at h
      split at h
      next =>
        rcases startsAt_cons.mp h with ⟨rfl, -⟩ | h
        · exact ⟨b, Or.inl ⟨rfl, rfl⟩⟩
        · rw [Block.merge_size, ← Nat.add_assoc] at h
          exact ⟨d, Or.inr (Or.inr h)⟩
      next => exact ⟨d, h⟩

/-- Merging only removes boundaries. -/
theorem startsAt_coalesceAll (h : StartsAt Block.size base (coalesceAll bs) q d) :
    ∃ e, StartsAt Block.size base bs q e := by
  induction bs generalizing base d with
  | nil => exact h.elim
  | cons b bs ih =>
      obtain ⟨e, he⟩ := startsAt_mergeCons h
      rcases startsAt_cons.mp he with ⟨rfl, -⟩ | he
      · exact ⟨b, Or.inl ⟨rfl, rfl⟩⟩
      · obtain ⟨f, hf⟩ := ih he
        exact ⟨f, Or.inr hf⟩

theorem mergeCons_covers (hd : d.alloc = false) (h : StartsAt Block.size base (b :: bs) q d) :
    ∃ r e, StartsAt Block.size base (mergeCons b bs) r e ∧ e.alloc = false ∧ r ≤ q ∧
      q + d.size ≤ r + e.size := by
  cases bs with
  | nil => exact ⟨q, d, h, hd, Nat.le_refl _, Nat.le_refl _⟩
  | cons c cs =>
      rw [mergeCons]
      split
      next =>
        rcases h with ⟨rfl, rfl⟩ | ⟨rfl, rfl⟩ | h
        · exact ⟨q, _, Or.inl ⟨rfl, rfl⟩, rfl, Nat.le_refl _, by rw [Block.merge_size]; omega⟩
        · exact ⟨base, _, Or.inl ⟨rfl, rfl⟩, rfl, by omega, by rw [Block.merge_size]; omega⟩
        · rw [Nat.add_assoc, ← Block.merge_size] at h
          exact ⟨q, d, Or.inr h, hd, Nat.le_refl _, Nat.le_refl _⟩
      next => exact ⟨q, d, h, hd, Nat.le_refl _, Nat.le_refl _⟩

/-- A free block ends up inside a free block. -/
theorem coalesceAll_covers (hd : d.alloc = false) (h : StartsAt Block.size base bs q d) :
    ∃ r e, StartsAt Block.size base (coalesceAll bs) r e ∧ e.alloc = false ∧ r ≤ q ∧
      q + d.size ≤ r + e.size := by
  induction bs generalizing base with
  | nil => exact h.elim
  | cons b bs ih =>
      rcases h with ⟨rfl, rfl⟩ | h
      · exact mergeCons_covers hd (Or.inl ⟨rfl, rfl⟩)
      · obtain ⟨r, e, he, hfree, hle, hend⟩ := ih h
        obtain ⟨r', e', he', hfree', hle', hend'⟩ := mergeCons_covers (b := b) hfree (Or.inr he)
        exact ⟨r', e', he', hfree', by omega, by omega⟩

/-- Settling in a finer list first does not matter. -/
theorem settle_settle {c : Nat} (hspan : span cs = span bs)
    (hc : c = prologueOffset ∨ firstOffset ≤ c ∧ c < firstOffset + span bs)
    (hsub : ∀ q d, StartsAt Block.size firstOffset cs q d →
      ∃ e, StartsAt Block.size firstOffset bs q e) :
    settle cs (settle bs c) = settle cs c := by
  rcases hc with rfl | ⟨hlo, hhi⟩
  · rfl
  · obtain ⟨d, hd, hdle, hdlt⟩ := startOf_spec hlo hhi
    have hhi' : c < firstOffset + span cs := by omega
    obtain ⟨e, he, hele, helt⟩ := startOf_spec hlo hhi'
    rw [NextFit.settle_of_covered hd hdle hdlt, NextFit.settle_of_covered he hele helt]
    refine NextFit.settle_of_covered he ?_ (by omega)
    by_contra hlt
    obtain ⟨f, hf⟩ := hsub _ _ he
    have := hd.end_le_of_lt hf (by omega)
    omega

end Boundaries

/-! ## Several frees on next fit -/

namespace NextFit

/-- What frees at the offsets `os` leave of a heap. -/
structure Freed (a b : NextFit) (os : List Nat) : Prop where
  valid : b.Valid
  extent : span b.blocks = span a.blocks
  alloc : ∀ p n, b.Alloc p n ↔ a.Alloc p n ∧ p ∉ os
  boundary : ∀ q d, StartsAt Block.size firstOffset b.blocks q d →
    ∃ e, StartsAt Block.size firstOffset a.blocks q e
  cursor : b.cursor = settle b.blocks a.cursor

variable {a b c : NextFit} {os os' : List Nat} {o n : Nat}

theorem Freed.refl (hv : a.Valid) : Freed a a [] where
  valid := hv
  extent := rfl
  alloc p n := by simp
  boundary _ d h := ⟨d, h⟩
  cursor := (settle_of_onBoundary hv.cursor).symm

theorem Freed.trans (hv : a.Valid) (h : Freed a b os) (h' : Freed b c os') :
    Freed a c (os ++ os') where
  valid := h'.valid
  extent := h'.extent.trans h.extent
  alloc p n := by
    rw [h'.alloc, h.alloc, List.mem_append, not_or, and_assoc]
  boundary q d hd := by
    obtain ⟨e, he⟩ := h'.boundary q d hd
    exact h.boundary q e he
  cursor := by
    rw [h'.cursor, h.cursor]
    exact settle_settle h'.extent (h.extent ▸ onBoundary_range hv.cursor) h'.boundary

theorem free_freed (hv : a.Valid) (halloc : a.Alloc o n) : Freed a (a.free o) [o] := by
  obtain ⟨pre, b, post, hblocks, ho, -, -⟩ := halloc.cut
  have hfree := free_blocks hblocks ho
  refine ⟨free_valid hv hblocks ho, ?_, ?_, ?_, rfl⟩
  · rw [hfree, span_coalesceAll, hblocks]
    simp
  · intro p k
    rw [alloc_free hblocks ho, List.mem_singleton]
  · intro q d hd
    rw [hfree] at hd
    obtain ⟨e, he⟩ := startsAt_coalesceAll hd
    rw [hblocks]
    rw [startsAt_append, startsAt_cons] at he
    simp only [startsAt_append, startsAt_cons]
    rcases he with he | ⟨hq, -⟩ | he
    · exact ⟨e, Or.inl he⟩
    · exact ⟨b, Or.inr (Or.inl ⟨hq, rfl⟩)⟩
    · exact ⟨e, Or.inr (Or.inr he)⟩

/-- The bytes of a freed block lie in a free block. -/
theorem free_covers (halloc : a.Alloc o n) :
    ∃ r e, StartsAt Block.size firstOffset (a.free o).blocks r e ∧ e.alloc = false ∧ r ≤ o ∧
      o + n ≤ r + e.size := by
  obtain ⟨pre, b, post, hblocks, ho, -, rfl⟩ := halloc.cut
  have hstart : StartsAt Block.size firstOffset (pre ++ b.freed :: post)
      (firstOffset + span pre) b.freed := startsAt_middle pre post
  have hcovers := coalesceAll_covers b.freed_alloc hstart
  rw [free_blocks hblocks ho, ho]
  exact hcovers

def freeAll (a : NextFit) (os : List Nat) : NextFit := os.foldl free a

theorem freeAll_freed (hv : a.Valid) (hnodup : os.Nodup) (halloc : ∀ o ∈ os, ∃ n, a.Alloc o n) :
    Freed a (a.freeAll os) os := by
  induction os generalizing a with
  | nil => exact Freed.refl hv
  | cons o os ih =>
      obtain ⟨hnot, hnodup⟩ := List.nodup_cons.mp hnodup
      obtain ⟨n, hn⟩ := halloc o List.mem_cons_self
      have hfirst := free_freed hv hn
      refine Freed.trans hv hfirst (ih hfirst.valid hnodup fun p hp => ?_)
      obtain ⟨k, hk⟩ := halloc p (List.mem_cons_of_mem o hp)
      refine ⟨k, (hfirst.alloc p k).mpr ⟨hk, ?_⟩⟩
      rw [List.mem_singleton]
      exact fun heq => hnot (heq ▸ hp)

/-- The same offsets freed in any order leave the same list and the same cursor. -/
theorem Freed.unique (h : Freed a b os) (h' : Freed a c os') (hmem : ∀ o, o ∈ os ↔ o ∈ os') :
    b = c := by
  have hblocks : b.blocks = c.blocks := by
    have halloc : ∀ p n, b.Alloc p n ↔ c.Alloc p n := by
      intro p n
      rw [h.alloc, h'.alloc, hmem]
    exact separated_unique h.valid.separated h'.valid.separated
      (h.extent.trans h'.extent.symm) halloc
  have hcursor : b.cursor = c.cursor := by rw [h.cursor, h'.cursor, hblocks]
  cases b
  cases c
  simp_all

/-- With every block freed, one block is left. -/
theorem Freed.single (h : Freed a b os) (hall : ∀ p n, a.Alloc p n → p ∈ os)
    (hpos : 0 < span a.blocks) : ∃ d, b.blocks = [d] ∧ d.alloc = false := by
  have hnone : ∀ p n, ¬ AllocAt firstOffset b.blocks p n := by
    intro p n hp
    obtain ⟨ha, hp⟩ := (h.alloc p n).mp hp
    exact hp (hall p n ha)
  have hsep := h.valid.separated
  rw [← h.extent] at hpos
  cases hb : b.blocks with
  | nil => simp [hb] at hpos
  | cons d ds =>
      rw [hb] at hnone hsep
      have hd : d.alloc = false := by
        by_contra ha
        exact hnone firstOffset d.size (allocAt_head.mpr ⟨by simpa using ha, rfl⟩)
      cases ds with
      | nil => exact ⟨d, rfl, hd⟩
      | cons e es =>
          rcases (separated_cons_cons.mp hsep).1 with ha | ha
          · simp [hd] at ha
          · exact (hnone _ e.size
              (allocAt_cons.mpr (Or.inr (allocAt_head.mpr ⟨ha, rfl⟩)))).elim

end NextFit

/-! ## The list of blocks never becomes empty -/

theorem free_nonempty {a : NextFit} {o n : Nat} (hv : a.Valid) (halloc : a.Alloc o n)
    (hpos : 0 < span a.blocks) : 0 < span (a.free o).blocks := by
  rw [(NextFit.free_freed hv halloc).extent]
  exact hpos

theorem malloc_nonempty {a : NextFit} (hv : a.Valid) (hpos : 0 < span a.blocks) (size : Nat) :
    0 < span (a.malloc size).1.blocks := by
  rcases hm : a.malloc size with ⟨b, _ | o⟩
  · obtain rfl := NextFit.malloc_none hm
    exact hpos
  · obtain ⟨n, -, halloc⟩ := (NextFit.malloc_some hv hm).alloc
    have hnew : b.Alloc o n := (halloc o n).mpr (Or.inr ⟨rfl, rfl⟩)
    have := AllocAt.bounds hnew
    have := AllocAt.minimum hnew
    dsimp only
    omega

theorem invoke_nonempty (b : Pool) (call : Call) (hv : b.Valid) (hpos : 0 < span b.next.blocks) :
    0 < span (b.invoke call).1.next.blocks := by
  cases call with
  | malloc size =>
      have hmalloc := malloc_nonempty hv.next hpos size
      rw [Pool.invoke]
      rcases hm : b.next.malloc size with ⟨a, _ | o⟩ <;> rwa [hm] at hmalloc
  | free k =>
      rw [Pool.invoke]
      rcases hk : b.live[k]? with _ | ⟨o, s⟩
      · exact hpos
      · obtain ⟨n, hn, -⟩ := hv.alloc_of_get hk
        exact free_nonempty hv.next hn hpos
  | realloc k size =>
      rw [Pool.invoke]
      rcases hk : b.live[k]? with _ | ⟨o, s⟩
      · exact hpos
      · obtain ⟨n, hn, -⟩ := hv.alloc_of_get hk
        have hmalloc := malloc_nonempty hv.next hpos size
        by_cases hz : size = 0
        · simp only [NextFit.realloc, hz, if_true]
          exact free_nonempty hv.next hn hpos
        · rcases hm : b.next.malloc size with ⟨a, _ | p⟩
          · simp only [NextFit.realloc, hm, hz, if_false]
            rwa [hm] at hmalloc
          · obtain hs := NextFit.malloc_some hv.next hm
            obtain ⟨m, -, halloc⟩ := hs.alloc
            simp only [NextFit.realloc, hm, hz, if_false]
            rw [hm] at hmalloc
            exact free_nonempty hs.valid ((halloc o n).mpr (Or.inl hn)) hmalloc

/-! ## Several frees on the heap -/

def freeAll (h : Heap) (ps : List Nat) : Heap := ps.foldl mmFree h

theorem freeAll_refines {h : Heap} {a : NextFit} {os : List Nat} (R : Represents h a)
    (hnodup : os.Nodup) (halloc : ∀ o ∈ os, ∃ n, a.Alloc o n) :
    Represents (freeAll h (os.map (h.memStartBrk + ·))) (a.freeAll os) ∧
      (freeAll h (os.map (h.memStartBrk + ·))).memStartBrk = h.memStartBrk := by
  induction os generalizing h a with
  | nil => exact ⟨R, rfl⟩
  | cons o os ih =>
      obtain ⟨hnot, hnodup⟩ := List.nodup_cons.mp hnodup
      obtain ⟨n, hn⟩ := halloc o List.mem_cons_self
      obtain ⟨R', hstart, -⟩ := mmFree_refines R hn
      have hfirst := NextFit.free_freed R.valid hn
      obtain ⟨R'', hstart'⟩ := ih R' hnodup fun p hp => by
        obtain ⟨k, hk⟩ := halloc p (List.mem_cons_of_mem o hp)
        refine ⟨k, (hfirst.alloc p k).mpr ⟨hk, ?_⟩⟩
        rw [List.mem_singleton]
        exact fun heq => hnot (heq ▸ hp)
      rw [hstart] at R'' hstart'
      exact ⟨R'', hstart'⟩

/-- Live pointers as offsets. -/
theorem Simulates.offsets {c : Client} {b : Pool} (M : Simulates c b) {ps : List Nat}
    (hnodup : ps.Nodup) (hlive : ∀ p ∈ ps, p ∈ c.live.map Prod.fst) :
    ∃ os : List Nat, ps = os.map (c.heap.memStartBrk + ·) ∧ os.Nodup ∧
      ∀ o ∈ os, ∃ n, b.next.Alloc o n := by
  have hoffset : ∀ p ∈ ps, ∃ o n, b.next.Alloc o n ∧ p = c.heap.memStartBrk + o :=
    fun p hp => (M.mem_pointers p).mp (hlive p hp)
  have hps : ps = (ps.map (· - c.heap.memStartBrk)).map (c.heap.memStartBrk + ·) := by
    rw [List.map_map]
    conv_lhs => rw [← List.map_id ps]
    refine List.map_congr_left fun p hp => ?_
    obtain ⟨o, n, -, rfl⟩ := hoffset p hp
    simp
  refine ⟨_, hps, ?_, ?_⟩
  · rw [hps] at hnodup
    exact hnodup.of_map _
  · intro o ho
    obtain ⟨p, hp, rfl⟩ := List.mem_map.mp ho
    obtain ⟨o, n, hn, rfl⟩ := hoffset p hp
    exact ⟨n, by rwa [Nat.add_sub_cancel_left]⟩

/-- Freed in any two orders, the same live pointers leave the same blocks, cursor
and break; all of them freed leave one free block between prologue and epilogue. -/
theorem freeAll_perm {c : Client} {ps qs : List Nat}
    (hreach : allocator.ReachableWhere Client.Valid c) (hnodup : ps.Nodup)
    (hlive : ∀ p ∈ ps, p ∈ c.live.map Prod.fst) (hperm : ps.Perm qs) :
    (entries (freeAll c.heap ps) = entries (freeAll c.heap qs) ∧
      (freeAll c.heap ps).nextFitPointer = (freeAll c.heap qs).nextFitPointer ∧
      (freeAll c.heap ps).memBrk = (freeAll c.heap qs).memBrk) ∧
    ((∀ p ∈ c.live.map Prod.fst, p ∈ ps) →
      entries (freeAll c.heap ps) = [Entry.prologue c.heap.memStartBrk,
        ⟨c.heap.memStartBrk + 16, memHeapsize (freeAll c.heap ps) - 16, 0⟩] ∧
      get (freeAll c.heap ps).mem ((freeAll c.heap ps).memBrk - 4) = pack 0 1) := by
  obtain ⟨b, M, hpos⟩ := reachable_pool (P := fun b => 0 < span b.next.blocks) (by decide)
    invoke_nonempty hreach
  obtain ⟨os, rfl, hos, halloc⟩ := M.offsets hnodup hlive
  obtain ⟨os', rfl, hos', halloc'⟩ := M.offsets (hperm.nodup_iff.mp hnodup)
    fun p hp => hlive p (hperm.mem_iff.mpr hp)
  obtain ⟨R, hstart⟩ := freeAll_refines M.heap hos halloc
  obtain ⟨R', hstart'⟩ := freeAll_refines M.heap hos' halloc'
  have hfreed := NextFit.freeAll_freed M.valid.next hos halloc
  have hfreed' := NextFit.freeAll_freed M.valid.next hos' halloc'
  have hmem : ∀ o, o ∈ os ↔ o ∈ os' := by
    intro o
    have := hperm.mem_iff (a := c.heap.memStartBrk + o)
    simpa using this
  refine ⟨?_, fun hall => ?_⟩
  · rw [← hfreed.unique hfreed' hmem] at R'
    refine ⟨?_, ?_, ?_⟩
    · rw [R.entries_eq, R'.entries_eq, hstart, hstart']
    · rw [R.cursor, R'.cursor, hstart, hstart']
    · rw [R.layout.brk, R'.layout.brk, hstart, hstart']
  · have hevery : ∀ p n, b.next.Alloc p n → p ∈ os := by
      intro p n hp
      have := hall _ ((M.mem_pointers _).mpr ⟨p, n, hp, rfl⟩)
      simpa using this
    obtain ⟨d, hd, hfree⟩ := hfreed.single hevery hpos
    refine ⟨?_, R.layout.epilogue⟩
    have hbrk := R.layout.brk
    rw [hd, span_cons, span_nil, hstart] at hbrk
    have hsize : memHeapsize (freeAll c.heap (os.map (c.heap.memStartBrk + ·))) - 16 = d.size := by
      rw [memHeapsize, hstart, hbrk, firstOffset]
      omega
    rw [R.entries_eq, hd, hstart, hsize, view_cons, view_nil, Block.entry, hfree]
    rfl

theorem sampleLater_freeAll_perm :
    let ps := sampleLater.live.map Prod.fst
    (entries (freeAll sampleLater.heap ps) = entries (freeAll sampleLater.heap ps.reverse) ∧
      (freeAll sampleLater.heap ps).nextFitPointer =
        (freeAll sampleLater.heap ps.reverse).nextFitPointer ∧
      (freeAll sampleLater.heap ps).memBrk = (freeAll sampleLater.heap ps.reverse).memBrk) ∧
    ((∀ p ∈ ps, p ∈ ps) →
      entries (freeAll sampleLater.heap ps) = [Entry.prologue sampleLater.heap.memStartBrk,
        ⟨sampleLater.heap.memStartBrk + 16, memHeapsize (freeAll sampleLater.heap ps) - 16, 0⟩] ∧
      get (freeAll sampleLater.heap ps).mem ((freeAll sampleLater.heap ps).memBrk - 4) =
        pack 0 1) :=
  freeAll_perm sampleLater_reachable (by decide +kernel) (fun _ h => h) (List.reverse_perm _).symm

end CompOrg.Malloc
