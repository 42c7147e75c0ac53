import CompOrg.Malloc.Entries
import Mathlib.Order.Bounds.Basic

/-! # Where `mm_malloc` puts a block

The effect of one request on the block list that the macros read: the block that
the search finds from the cursor around, or the free block at the end of a heap
that has just grown, is split or taken whole, and no other block changes.
-/

namespace CompOrg.Malloc

open Segments

/-- The size that a request is rounded up to. -/
def IsAdjusted (size asize : Nat) : Prop := IsLeast {n | n % 8 = 0 ∧ size + 8 ≤ n ∧ 16 ≤ n} asize

/-- From the cursor to the end of the heap, then from `heap_listp` to the cursor. -/
def searchOrder (h : Heap) : List Entry :=
  ((entries h).filter fun e => decide (h.nextFitPointer ≤ e.addr)) ++
    (entries h).filter fun e => decide (e.addr < h.nextFitPointer)

/-- Block `e` is split when sixteen bytes or more are left over, and taken whole
otherwise; the blocks around it stay. -/
def Places (asize : Nat) (e : Entry) (before after : List Entry) : Prop :=
  ∃ pre post, before = pre ++ e :: post ∧
    (asize + 16 ≤ e.size ∧
        after = pre ++ ⟨e.addr, asize, 1⟩ :: ⟨e.addr + asize, e.size - asize, 0⟩ :: post ∨
      (e.size = asize ∨ e.size = asize + 8) ∧ after = pre ++ ⟨e.addr, e.size, 1⟩ :: post)

/-- The heap grows by `n` bytes: they join the free block at its end, or become a
free block where it ended. -/
def Grows (n brk : Nat) (before after : List Entry) (e : Entry) : Prop :=
  (∃ pre t, before = pre ++ [t] ∧ t.alloc = 0 ∧ e = ⟨t.addr, t.size + n, 0⟩ ∧
      after = pre ++ [e]) ∨
    (∀ t, before.getLast? = some t → t.alloc ≠ 0) ∧ e = ⟨brk, n, 0⟩ ∧ after = before ++ [e]

theorem roundUp_isAdjusted (size : Nat) : IsAdjusted size (roundUp size) := by
  refine ⟨⟨roundUp_aligned size, add_tags_le_roundUp size, roundUp_minimum size⟩, ?_⟩
  rintro n ⟨haligned, hroom, hmin⟩
  unfold roundUp
  split <;> omega

/-! ## Placement -/

theorem view_split (w b : Block) (p : Nat) :
    view p (w.split b) = if w.size + 16 ≤ b.size
      then [⟨p, w.size, 1⟩, ⟨p + w.size, b.size - w.size, 0⟩] else [⟨p, b.size, 1⟩] := by
  unfold Block.split
  split
  next => rfl
  next => rfl

theorem places_of_split {w b : Block} (hfit : w.size ≤ b.size) (front : List Entry) (p : Nat)
    (pre post : List Block) :
    Places w.size (b.entry (p + span pre)) (front ++ view p (pre ++ b :: post))
      (front ++ view p (pre ++ w.split b ++ post)) := by
  refine ⟨front ++ view p pre, view (p + span pre + b.size) post, ?_, ?_⟩
  · rw [view_append, view_cons, List.append_assoc]
  · rw [List.append_assoc pre, view_append p pre, view_append (p + span pre), span_split,
      view_split, Block.entry_size, Block.entry_addr]
    by_cases hbig : w.size + 16 ≤ b.size
    · refine Or.inl ⟨hbig, ?_⟩
      rw [if_pos hbig]
      simp
    · have hw := w.aligned
      have hb := b.aligned
      refine Or.inr ⟨by omega, ?_⟩
      rw [if_neg hbig]
      simp

/-! ## Search -/

/-- The first fit among the blocks at some offsets is the first among their
entries. -/
theorem find?_view_of_some {n : Nat} {among : Nat → Bool} {base o : Nat} {bs : List Block}
    (start : Nat) (test : Nat → Bool) (htest : ∀ q, test (start + q) = among q)
    (h : NextFit.firstFit n among base bs = some o) :
    ∃ pre b post, bs = pre ++ b :: post ∧ o = base + span pre ∧ b.alloc = false ∧ n ≤ b.size ∧
      ((view (start + base) bs).filter fun e => test e.addr).find? (fun e => e.Fits n) =
        some (b.entry (start + o)) := by
  induction bs generalizing base with
  | nil => simp [NextFit.firstFit] at h
  | cons b bs ih =>
      rw [NextFit.firstFit] at h
      split at h
      next hfit =>
        cases h
        refine ⟨[], b, bs, rfl, rfl, hfit.2.1, hfit.2.2, ?_⟩
        have hhead := (htest o).trans hfit.1
        simp [hhead, Block.entry_fits, hfit.2]
      next hmiss =>
        obtain ⟨pre, d, post, rfl, rfl, hfree, hle, hfind⟩ := ih h
        refine ⟨b :: pre, d, post, rfl, by simp [Nat.add_assoc], hfree, hle, ?_⟩
        rw [view_cons, ← hfind, Nat.add_assoc]
        by_cases ht : test (start + base) = true
        · have hnot : ¬ (b.entry (start + base)).Fits n := by
            rw [Block.entry_fits]
            exact fun hb => hmiss ⟨(htest base).symm.trans ht, hb⟩
          simp [ht, hnot]
        · simp [ht]

theorem find?_view_of_none {n : Nat} {among : Nat → Bool} {base : Nat} {bs : List Block}
    (start : Nat) (test : Nat → Bool) (htest : ∀ q, test (start + q) = among q)
    (h : NextFit.firstFit n among base bs = none) :
    ((view (start + base) bs).filter fun e => test e.addr).find? (fun e => e.Fits n) = none := by
  induction bs generalizing base with
  | nil => rfl
  | cons b bs ih =>
      rw [NextFit.firstFit] at h
      split at h
      next => simp at h
      next hmiss =>
        rw [view_cons, Nat.add_assoc, ← ih h]
        by_cases ht : test (start + base) = true
        · have hnot : ¬ (b.entry (start + base)).Fits n := by
            rw [Block.entry_fits]
            exact fun hb => hmiss ⟨(htest base).symm.trans ht, hb⟩
          simp [ht, hnot]
        · simp [ht]

/-- The prologue is allocated, so a search never stops there. -/
theorem find?_prologue {n start : Nat} (test : Nat → Bool) (es : List Entry) :
    ((Entry.prologue start :: es).filter fun e => test e.addr).find? (fun e => e.Fits n) =
      (es.filter fun e => test e.addr).find? (fun e => e.Fits n) := by
  by_cases ht : test (Entry.prologue start).addr = true
  · simp [ht, Entry.not_fits_prologue]
  · simp [ht]

theorem mem_searchOrder {h : Heap} {e : Entry} : e ∈ searchOrder h ↔ e ∈ entries h := by
  have htotal : h.nextFitPointer ≤ e.addr ∨ e.addr < h.nextFitPointer := (Nat.lt_or_ge _ _).symm
  simp only [searchOrder, List.mem_append, List.mem_filter, decide_eq_true_eq]
  tauto

section Represented

variable {h : Heap} {a : NextFit} {n : Nat}

theorem Represents.find?_of_search_some {o : Nat} (R : Represents h a)
    (hs : a.search n = some o) :
    ∃ pre b post, a.blocks = pre ++ b :: post ∧ o = firstOffset + span pre ∧ b.alloc = false ∧
      n ≤ b.size ∧
      (searchOrder h).find? (fun e => e.Fits n) = some (b.entry (h.memStartBrk + o)) := by
  have hle : ∀ q, decide (h.nextFitPointer ≤ h.memStartBrk + q) = decide (a.cursor ≤ q) := by
    intro q
    simp [R.cursor]
  have hlt : ∀ q, decide (h.memStartBrk + q < h.nextFitPointer) = decide (q < a.cursor) := by
    intro q
    simp [R.cursor]
  rw [searchOrder, List.find?_append, R.entries_eq,
    find?_prologue (fun q => decide (h.nextFitPointer ≤ q)),
    find?_prologue (fun q => decide (q < h.nextFitPointer))]
  rcases Option.or_eq_some_iff.mp hs with hs | ⟨hnone, hs⟩
  · obtain ⟨pre, b, post, hblocks, ho, hfree, hfit, hfind⟩ :=
      find?_view_of_some h.memStartBrk (fun q => decide (h.nextFitPointer ≤ q)) hle hs
    refine ⟨pre, b, post, hblocks, ho, hfree, hfit, ?_⟩
    rw [hfind, Option.some_or]
  · obtain ⟨pre, b, post, hblocks, ho, hfree, hfit, hfind⟩ :=
      find?_view_of_some h.memStartBrk (fun q => decide (q < h.nextFitPointer)) hlt hs
    refine ⟨pre, b, post, hblocks, ho, hfree, hfit, ?_⟩
    rw [find?_view_of_none h.memStartBrk (fun q => decide (h.nextFitPointer ≤ q)) hle hnone,
      Option.none_or, hfind]

theorem Represents.not_fits_of_search_none (R : Represents h a) (hs : a.search n = none) :
    ∀ e ∈ entries h, ¬ e.Fits n := by
  intro e he
  rw [R.entries_eq, List.mem_cons] at he
  rcases he with rfl | he
  · exact Entry.not_fits_prologue _ _
  · obtain ⟨o, b, hb, rfl⟩ := mem_view.mp he
    rw [Block.entry_fits]
    exact NextFit.search_none hs hb

/-! ## The request -/

/-- Growth merges the new chunk with the free block in front of it, if there is one. -/
theorem grow_blocks {c : Block} (hsep : Separated a.blocks) (hc : c.alloc = false) :
    (∃ pre t, a.blocks = pre ++ [t] ∧ t.alloc = false ∧
        (a.grow c).blocks = pre ++ [t.merge c]) ∨
      (∀ t, a.blocks.getLast? = some t → t.alloc = true) ∧ (a.grow c).blocks = a.blocks ++ [c] := by
  change (∃ pre t, a.blocks = pre ++ [t] ∧ t.alloc = false ∧
      coalesceAll (a.blocks ++ [c]) = pre ++ [t.merge c]) ∨
    (∀ t, a.blocks.getLast? = some t → t.alloc = true) ∧
      coalesceAll (a.blocks ++ [c]) = a.blocks ++ [c]
  rcases List.eq_nil_or_concat a.blocks with hnil | ⟨pre, t, hblocks⟩
  · rw [hnil]
    exact Or.inr ⟨by simp, rfl⟩
  · rw [List.concat_eq_append] at hblocks
    rw [hblocks] at hsep ⊢
    cases ht : t.alloc with
    | false =>
        refine Or.inl ⟨pre, t, rfl, ht, ?_⟩
        rw [List.append_assoc]
        exact coalesceAll_pair ht hc hsep (separated_singleton c)
    | true =>
        refine Or.inr ⟨by simp [ht], ?_⟩
        have happ : Separated (pre ++ t :: [c]) :=
          separated_append_cons_cons.mpr ⟨hsep, Or.inl ht, separated_singleton c⟩
        rw [List.append_assoc]
        exact coalesceAll_of_separated happ

/-- With an allocated block at the end, the last entry is allocated too. -/
theorem alloc_getLast?_view {start p : Nat} {bs : List Block}
    (hlast : ∀ t, bs.getLast? = some t → t.alloc = true) (e : Entry)
    (he : (Entry.prologue start :: view p bs).getLast? = some e) : e.alloc ≠ 0 := by
  rcases List.eq_nil_or_concat bs with rfl | ⟨pre, t, rfl⟩
  · cases he
    exact Nat.one_ne_zero
  · rw [List.concat_eq_append] at he hlast
    rw [view_append, ← List.cons_append, view_cons, view_nil, List.getLast?_concat] at he
    cases he
    rw [ne_eq, t.entry_alloc_eq_zero, hlast t (by simp)]
    decide

theorem entries_grow {c : Block} (R : Represents h a) (hc : c.alloc = false) :
    ∃ pre d, (a.grow c).blocks = pre ++ [d] ∧ d.alloc = false ∧ c.size ≤ d.size ∧
      startOf Block.size firstOffset (a.grow c).blocks a.brk = firstOffset + span pre ∧
      Grows c.size h.memBrk (entries h)
        (Entry.prologue h.memStartBrk :: view (h.memStartBrk + firstOffset) (a.grow c).blocks)
        (d.entry (h.memStartBrk + firstOffset + span pre)) := by
  obtain ⟨pre, d, hgrow, hfree, hle, ho⟩ := NextFit.grow_last a hc
  refine ⟨pre, d, hgrow, hfree, hle, ho, ?_⟩
  rw [R.entries_eq, hgrow, view_append]
  rcases grow_blocks R.valid.separated hc with ⟨front, t, hblocks, ht, hmerged⟩ | ⟨hlast, hadded⟩
  · obtain ⟨rfl, hd⟩ := List.append_inj' (hgrow.symm.trans hmerged) rfl
    obtain rfl := List.singleton_inj.mp hd
    refine Or.inl ⟨Entry.prologue h.memStartBrk :: view (h.memStartBrk + firstOffset) pre,
      t.entry (h.memStartBrk + firstOffset + span pre), ?_, (t.entry_alloc_eq_zero _).mpr ht,
      rfl, rfl⟩
    rw [hblocks, view_append]
    rfl
  · obtain ⟨rfl, hd⟩ := List.append_inj' (hgrow.symm.trans hadded) rfl
    obtain rfl := List.singleton_inj.mp hd
    refine Or.inr ⟨?_, ?_, rfl⟩
    · exact alloc_getLast?_view hlast
    · rw [R.layout.brk, Block.entry, hc]
      rfl

/-! ## `mm_malloc` -/

/-- A fit is found: the break stays, and the block is placed there. -/
theorem Represents.mmMalloc_found {size o : Nat} (R : Represents h a) (hpos : size ≠ 0)
    (hsize : size + 15 < 2 ^ 32) (hs : a.search (roundUp size) = some o) :
    ∃ h' e, mmMalloc h size = some (h', e.addr) ∧ (∃ a', Represents h' a') ∧
      h'.memBrk = h.memBrk ∧
      (searchOrder h).find? (fun e => e.Fits (roundUp size)) = some e ∧
      Places (roundUp size) e (entries h) (entries h') := by
  obtain ⟨pre, b, post, hblocks, ho, hfree, hfit, hfind⟩ := R.find?_of_search_some hs
  have hm : a.malloc size = ({ a.place (Block.request size) o with cursor := o }, some o) := by
    rw [NextFit.malloc, if_neg hpos, hs]
  obtain ⟨h', hcall, R', hstart, -⟩ := mmMalloc_of_some R hsize (by rw [hm])
  rw [hm] at R'
  have hplaced : (a.place (Block.request size) o).blocks =
      pre ++ (Block.request size).split b ++ post := NextFit.place_blocks hblocks ho
  refine ⟨h', b.entry (h.memStartBrk + o), hcall, ⟨_, R'⟩, ?_, hfind, ?_⟩
  · rw [R'.layout.brk, R.layout.brk, hstart, hplaced, hblocks]
    simp only [span_append, span_cons, span_split]
    omega
  · rw [R'.entries_eq, R.entries_eq, hstart, hplaced, hblocks, ho, ← Nat.add_assoc]
    exact places_of_split (w := Block.request size) hfit [_] _ pre post

/-- No fit is found: the heap grows by a chunk and the block is placed in the free
block at its end, unless the break cannot move that far. -/
theorem Represents.mmMalloc_grown {size : Nat} (R : Represents h a) (hpos : size ≠ 0)
    (hsize : size + 15 < 2 ^ 32) (hs : a.search (roundUp size) = none) :
    mmMalloc h size = some (h, 0) ∧ h.memMaxAddr < h.memBrk + max (roundUp size) CHUNKSIZE ∨
      ∃ h' es e, mmMalloc h size = some (h', e.addr) ∧ (∃ a', Represents h' a') ∧
        h'.memBrk = h.memBrk + max (roundUp size) CHUNKSIZE ∧
        Grows (max (roundUp size) CHUNKSIZE) h.memBrk (entries h) es e ∧
        Places (roundUp size) e es (entries h') := by
  by_cases hroom : a.brk + (Block.chunk size).size ≤ MAX_HEAP
  · obtain ⟨pre, d, hgrow, hfree, hle, ho, hgrows⟩ :=
      entries_grow R (Block.chunk_alloc size)
    have hm : a.malloc size = ((a.grow (Block.chunk size)).place (Block.request size)
        (firstOffset + span pre), some (firstOffset + span pre)) := by
      rw [NextFit.malloc, if_neg hpos, hs]
      simp only [if_pos hroom, ho]
    obtain ⟨h', hcall, R', hstart, -⟩ := mmMalloc_of_some R hsize (by rw [hm])
    rw [hm] at R'
    have hplaced : ((a.grow (Block.chunk size)).place (Block.request size)
        (firstOffset + span pre)).blocks = pre ++ (Block.request size).split d ++ [] :=
      NextFit.place_blocks hgrow rfl
    have hfit : (Block.request size).size ≤ d.size := by
      rw [Block.chunk_size] at hle
      rw [Block.request_size]
      omega
    refine Or.inr ⟨h', _, d.entry (h.memStartBrk + firstOffset + span pre), ?_, ⟨_, R'⟩, ?_,
      hgrows, ?_⟩
    · rw [hcall, Block.entry_addr, Nat.add_assoc]
    · have hspan : span (a.grow (Block.chunk size)).blocks =
          span a.blocks + (Block.chunk size).size := by
        simp [NextFit.grow, span_coalesceAll]
      rw [hgrow] at hspan
      rw [R'.layout.brk, R.layout.brk, hstart, hplaced, ← Block.chunk_size]
      simp only [span_append, span_cons, span_split, span_nil] at hspan ⊢
      omega
    · rw [R'.entries_eq, hstart, hplaced, hgrow]
      exact places_of_split (w := Block.request size) hfit [_] _ pre []
  · have hm : (a.malloc size).2 = none := by
      rw [NextFit.malloc, if_neg hpos, hs]
      simp only [if_neg hroom]
    have hfull := mt (chunk_fits_iff R).mp hroom
    rw [Block.chunk_size] at hfull
    exact Or.inl ⟨mmMalloc_of_none R hsize hm, by omega⟩

end Represented

/-- From every state that a client reaches, a request that rounds up without
overflow returns; the block is placed at the first fit around the cursor, and only
when there is none the break moves, by exactly one chunk. -/
theorem mmMalloc_nextFit {c : Client} {size : Nat}
    (hreach : allocator.ReachableWhere Client.Valid c) (hpos : 0 < size)
    (hsize : size + 15 < 2 ^ 32) :
    ∃ asize h' p, IsAdjusted size asize ∧ mmMalloc c.heap size = some (h', p) ∧
      ((∃ e ∈ entries c.heap, e.Fits asize) →
        h'.memBrk = c.heap.memBrk ∧ ∃ e,
          (searchOrder c.heap).find? (fun e => e.Fits asize) = some e ∧ p = e.addr ∧
          Places asize e (entries c.heap) (entries h')) ∧
      ((∀ e ∈ entries c.heap, ¬ e.Fits asize) →
        (p = 0 ∧ h' = c.heap ∧ c.heap.memMaxAddr < c.heap.memBrk + max asize CHUNKSIZE) ∨
        h'.memBrk = c.heap.memBrk + max asize CHUNKSIZE ∧ ∃ es e,
          Grows (max asize CHUNKSIZE) c.heap.memBrk (entries c.heap) es e ∧ p = e.addr ∧
          Places asize e es (entries h')) ∧
      ∃ e ∈ entries h', h'.nextFitPointer = e.addr := by
  obtain ⟨b, M⟩ := reachable_simulates hreach
  have hne : size ≠ 0 := by omega
  have hadj := roundUp_isAdjusted size
  cases hs : b.next.search (roundUp size) with
  | some o =>
      obtain ⟨h', e, hcall, ⟨a', R'⟩, hbrk, hfind, hplaces⟩ := M.heap.mmMalloc_found hne hsize hs
      refine ⟨_, h', e.addr, hadj, hcall, fun _ => ⟨hbrk, e, hfind, rfl, hplaces⟩, ?_,
        R'.cursor_mem⟩
      intro hnone
      have hmem := mem_searchOrder.mp (List.mem_of_find?_eq_some hfind)
      exact (hnone e hmem (by simpa using List.find?_some hfind)).elim
  | none =>
      have hnone := M.heap.not_fits_of_search_none hs
      have hvacuous : ¬ ∃ e ∈ entries c.heap, e.Fits (roundUp size) :=
        fun ⟨e, he, hfit⟩ => hnone e he hfit
      rcases M.heap.mmMalloc_grown hne hsize hs with
        ⟨hcall, hfull⟩ | ⟨h', es, e, hcall, ⟨a', R'⟩, hbrk, hgrows, hplaces⟩
      · exact ⟨_, c.heap, 0, hadj, hcall, fun h => (hvacuous h).elim,
          fun _ => Or.inl ⟨rfl, rfl, hfull⟩, M.heap.cursor_mem⟩
      · exact ⟨_, h', e.addr, hadj, hcall, fun h => (hvacuous h).elim,
          fun _ => Or.inr ⟨hbrk, es, e, hgrows, rfl, hplaces⟩, R'.cursor_mem⟩

theorem sampleLater_nextFit :
    ∃ asize h' p, IsAdjusted 100 asize ∧ mmMalloc sampleLater.heap 100 = some (h', p) ∧
      ((∃ e ∈ entries sampleLater.heap, e.Fits asize) →
        h'.memBrk = sampleLater.heap.memBrk ∧ ∃ e,
          (searchOrder sampleLater.heap).find? (fun e => e.Fits asize) = some e ∧ p = e.addr ∧
          Places asize e (entries sampleLater.heap) (entries h')) ∧
      ((∀ e ∈ entries sampleLater.heap, ¬ e.Fits asize) →
        (p = 0 ∧ h' = sampleLater.heap ∧
          sampleLater.heap.memMaxAddr < sampleLater.heap.memBrk + max asize CHUNKSIZE) ∨
        h'.memBrk = sampleLater.heap.memBrk + max asize CHUNKSIZE ∧ ∃ es e,
          Grows (max asize CHUNKSIZE) sampleLater.heap.memBrk (entries sampleLater.heap) es e ∧
          p = e.addr ∧ Places asize e es (entries h')) ∧
      ∃ e ∈ entries h', h'.nextFitPointer = e.addr :=
  mmMalloc_nextFit sampleLater_reachable (by decide) (by decide)

end CompOrg.Malloc
