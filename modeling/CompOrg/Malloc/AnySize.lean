import CompOrg.Malloc.Entries

/-! # Requests of any 32-bit size

`adjustedSize` is computed modulo `2 ^ 32`, so the largest sizes round up to less
than a block. What a call does is described here for every size: the block it
places, the sizes for which that block is large enough, and the heap after a call
that returns `NULL`.
-/

namespace CompOrg.Malloc

open Memory Segments

/-! ## The adjusted size -/

theorem adjustedSize_aligned (size : Nat) : adjustedSize size % 8 = 0 := by
  unfold adjustedSize DSIZE
  split
  · rfl
  · unfold sizeT
    omega

theorem adjustedSize_lt (size : Nat) : adjustedSize size < 2 ^ 32 := by
  unfold adjustedSize DSIZE
  split
  · decide
  · exact Nat.mod_lt _ (by decide)

/-- A sum that wraps leaves less than a block. -/
theorem adjustedSize_of_wrapped {size : Nat} (hlt : size < 2 ^ 32) (hwrap : 2 ^ 32 ≤ size + 15) :
    adjustedSize size ≤ 8 := by
  have hsum : sizeT (size + 8 + (8 - 1)) = size + 15 - 2 ^ 32 := by
    unfold sizeT
    omega
  unfold adjustedSize DSIZE
  rw [if_neg (by omega), hsum]
  unfold sizeT
  omega

/-- The free block that `extend_heap` adds, for any adjusted size. -/
def Block.added (size : Nat) : Block where
  size := maxSize (adjustedSize size) CHUNKSIZE
  alloc := false
  aligned := by
    have := adjustedSize_aligned size
    unfold maxSize CHUNKSIZE
    split <;> omega
  minimum := by
    unfold maxSize CHUNKSIZE
    split <;> omega

@[simp] theorem Block.added_size (size : Nat) :
    (Block.added size).size = maxSize (adjustedSize size) CHUNKSIZE := rfl

theorem added_lt (size : Nat) : (Block.added size).size < 2 ^ 32 := by
  have := adjustedSize_lt size
  rw [Block.added_size, maxSize, CHUNKSIZE]
  split <;> omega

/-! ## One call -/

variable {h : Heap} {a : NextFit} {size : Nat}

/-- The heap and the free block on which `place` is called. -/
structure Placing (h : Heap) (a : NextFit) (asize : Nat) (g : Heap) (a' : NextFit) (o : Nat)
    (b : Block) : Prop where
  represents : Represents g a'
  start : g.memStartBrk = h.memStartBrk
  alloc : ∀ p n, a'.Alloc p n ↔ a.Alloc p n
  keeps : KeepsAllocated h.memStartBrk a.blocks h.mem g.mem
  block : StartsAt Block.size firstOffset a'.blocks o b
  free : b.alloc = false
  fits : asize ≤ b.size

theorem Placing.pointer_ne_zero {asize o : Nat} {g : Heap} {a' : NextFit} {b : Block}
    (P : Placing h a asize g a' o b) : h.memStartBrk + o ≠ 0 := by
  have := P.block.bounds.1
  unfold firstOffset at this
  omega

/-- A call either finds no block and no room, and changes nothing, or places its
block in a free one. -/
theorem mmMalloc_cases (R : Represents h a) (hpos : size ≠ 0) :
    (a.search (adjustedSize size) = none ∧
        h.memMaxAddr < h.memBrk + (Block.added size).size ∧ mmMalloc h size = some (h, 0)) ∨
      (a.search (adjustedSize size) ≠ none ∨
          h.memBrk + (Block.added size).size ≤ h.memMaxAddr) ∧
        ∃ g a' o b, Placing h a (adjustedSize size) g a' o b ∧
          mmMalloc h size =
            some (place g (h.memStartBrk + o) (adjustedSize size), h.memStartBrk + o) := by
  rw [mmMalloc, R.layout.ensureInit_eq]
  simp only [if_neg hpos, findFit_eq R]
  cases hs : a.search (adjustedSize size) with
  | some o =>
      obtain ⟨b, hb, hfree, hfit⟩ := NextFit.search_some hs
      have P : Placing h a (adjustedSize size) (cursorAt h o) { a with cursor := o } o b :=
        ⟨⟨R.layout.withCursor _, rfl, R.valid.separated, Or.inr ⟨b, hb⟩⟩, rfl,
          fun _ _ => Iff.rfl, KeepsAllocated.refl _ _ _, hb, hfree, hfit⟩
      refine Or.inr ⟨Or.inl (by simp), cursorAt h o, _, o, b, P, ?_⟩
      rw [if_pos P.pointer_ne_zero]
  | none =>
      by_cases hroom : h.memBrk + (Block.added size).size ≤ h.memMaxAddr
      · obtain ⟨pre, d, hblocks, hfree, hle, ho⟩ := NextFit.grow_last a (c := Block.added size) rfl
        obtain ⟨g, heq, Rg, hstart, hkeep⟩ := extendHeap_of_fits R (c := Block.added size) rfl hroom
        have hfit : adjustedSize size ≤ d.size := by
          rw [Block.added_size, maxSize] at hle
          split at hle <;> omega
        have P : Placing h a (adjustedSize size) g (a.grow (Block.added size))
            (firstOffset + span pre) d :=
          ⟨Rg, hstart, NextFit.alloc_grow rfl, hkeep,
            startsAt_iff_exists_append.mpr ⟨pre, [], hblocks, rfl⟩, hfree, hfit⟩
        refine Or.inr ⟨Or.inr hroom, g, _, _, d, P, ?_⟩
        rw [Block.added_size, ho] at heq
        simp only [ne_eq, not_true_eq_false, if_false, heq, if_neg P.pointer_ne_zero]
      · refine Or.inl ⟨rfl, by omega, ?_⟩
        have heq := extendHeap_of_not_fits (h := h) (c := Block.added size) (added_lt size)
          (by omega)
        rw [Block.added_size] at heq
        simp [heq]

/-! ## Failing calls -/

/-- Every call returns; when it returns `NULL`, the heap is the one it was given. -/
theorem mmMalloc_returns (R : Represents h a) (hpos : size ≠ 0) :
    ∃ h' p, mmMalloc h size = some (h', p) ∧ (p = 0 → h' = h) := by
  rcases mmMalloc_cases R hpos with ⟨-, -, hcall⟩ | ⟨-, g, a', o, b, P, hcall⟩
  · exact ⟨h, 0, hcall, fun _ => rfl⟩
  · exact ⟨_, _, hcall, fun hp => (P.pointer_ne_zero hp).elim⟩

theorem mmRealloc_returns {o n : Nat} (R : Represents h a) (halloc : a.Alloc o n)
    (hpos : size ≠ 0) :
    ∃ h' p, mmRealloc h (h.memStartBrk + o) size = some (h', p) ∧ (p = 0 → h' = h) := by
  obtain ⟨g, p, hcall, hnull⟩ := mmMalloc_returns R hpos
  rw [mmRealloc, if_neg hpos, if_neg (address_ne_zero _ halloc), hcall]
  by_cases hp : p = 0
  · exact ⟨g, 0, by simp [hp], fun _ => hnull hp⟩
  · exact ⟨_, p, if_neg hp, fun h0 => (hp h0).elim⟩

/-- A call that asks for memory, of any size that a `size_t` can hold. -/
def Call.Requests (held : Nat) : Call → Prop
  | .malloc size => 0 < size ∧ size < 2 ^ 32
  | .free _ => False
  | .realloc k size => k < held ∧ 0 < size ∧ size < 2 ^ 32

theorem invoke_returns {c : Client} {b : Pool} {call : Call} (M : Simulates c b)
    (hcall : call.Requests b.live.length) :
    ∃ c' r, c.invoke call = some (c', r) ∧ (r = 0 → c' = c) := by
  cases call with
  | malloc size =>
      obtain ⟨h', p, hm, hnull⟩ := mmMalloc_returns M.heap (Nat.ne_of_gt hcall.1)
      refine ⟨⟨h', if p = 0 then c.live else c.live ++ [(p, size)]⟩, p, ?_, fun hp => ?_⟩
      · rw [Client.invoke, hm]
        rfl
      · rw [hnull hp, if_pos hp]
  | free k => exact hcall.elim
  | realloc k size =>
      obtain ⟨⟨o, s⟩, hget⟩ : ∃ e, b.live[k]? = some e := ⟨_, List.getElem?_eq_getElem hcall.1⟩
      have hc := M.get_eq k
      rw [hget, Option.map_some] at hc
      obtain ⟨n, halloc, -⟩ := M.valid.alloc_of_get hget
      have hpos : size ≠ 0 := Nat.ne_of_gt hcall.2.1
      obtain ⟨h', p, hm, hnull⟩ := mmRealloc_returns M.heap halloc hpos
      refine ⟨⟨h', if p = 0 then c.live else c.live.set k (p, size)⟩, p, ?_, fun hp => ?_⟩
      · simp [Client.invoke, hc, hm, hpos]
      · rw [hnull hp, if_pos hp]

/-- From every state that a client reaches, a request that returns `NULL` leaves
every byte, the break and the cursor, so any later run is as if it had not been
made. -/
theorem invoke_null_unchanged {c : Client} {call : Call}
    (hreach : allocator.ReachableWhere Client.Valid c) (hcall : call.Requests c.live.length) :
    ∃ c' r, c.invoke call = some (c', r) ∧ (r = 0 →
      (∀ x, c'.heap.mem x = c.heap.mem x) ∧ c'.heap.memBrk = c.heap.memBrk ∧
        c'.heap.nextFitPointer = c.heap.nextFitPointer ∧
        ∀ es, allocator.run c' es = allocator.run c es) := by
  obtain ⟨b, M⟩ := reachable_simulates hreach
  obtain ⟨c', r, hinvoke, hnull⟩ := invoke_returns M (M.length_eq ▸ hcall : call.Requests _)
  refine ⟨c', r, hinvoke, fun hr => ?_⟩
  rw [hnull hr]
  exact ⟨fun _ => rfl, rfl, rfl, fun _ => rfl⟩

theorem sampleLater_null_unchanged :
    ∃ c' r, sampleLater.invoke (.realloc 0 (2 ^ 30)) = some (c', r) ∧ (r = 0 →
      (∀ x, c'.heap.mem x = sampleLater.heap.mem x) ∧
        c'.heap.memBrk = sampleLater.heap.memBrk ∧
        c'.heap.nextFitPointer = sampleLater.heap.nextFitPointer ∧
        ∀ es, allocator.run c' es = allocator.run sampleLater es) :=
  invoke_null_unchanged sampleLater_reachable
    ⟨by decide +kernel, by decide, by decide⟩

/-! ## Sizes that wrap -/

/-- A call that fails leaves the heap, a call that succeeds returns an allocated
block with room for the request; the tags describe blocks either way. -/
def CleanResult (h : Heap) (size : Nat) : Prop :=
  ∃ h' p bps, mmMalloc h size = some (h', p) ∧ HeapWellFormed h' bps ∧
    (p = 0 ∧ h'.mem = h.mem ∧ h'.memBrk = h.memBrk ∧ h'.nextFitPointer = h.nextFitPointer ∨
      p ∈ bps ∧ getAlloc h'.mem (hdrp p) = 1 ∧ size ≤ getSize h'.mem (hdrp p) - 8)

theorem clean_of_null (R : Represents h a) (hcall : mmMalloc h size = some (h, 0)) :
    CleanResult h size :=
  ⟨h, 0, _, hcall, R.heapWellFormed, Or.inl ⟨rfl, rfl, rfl, rfl⟩⟩

theorem clean_of_fits (R : Represents h a) (hsize : size + 15 < 2 ^ 32) : CleanResult h size := by
  rcases hm : a.malloc size with ⟨a', _ | o⟩
  · exact clean_of_null R (mmMalloc_of_none R hsize (by rw [hm]))
  · obtain ⟨h', hcall, R', hstart, -⟩ := mmMalloc_of_some R hsize (by rw [hm])
    obtain ⟨n, hroom, halloc⟩ := (NextFit.malloc_some R.valid hm).alloc
    have hnew : a'.Alloc o n := (halloc o n).mpr (Or.inr ⟨rfl, rfl⟩)
    rw [hm] at R'
    obtain ⟨hmem, hbit⟩ := (R'.alloc_iff (h.memStartBrk + o)).mpr ⟨o, n, hnew, by rw [hstart]⟩
    have hcap := (R'.read_alloc hnew).1
    rw [hstart] at hcap
    exact ⟨h', _, _, hcall, R'.heapWellFormed, Or.inr ⟨hmem, hbit, by omega⟩⟩

/-- No block in a 32-bit heap has room for a size that wraps. -/
theorem not_clean_of_wrapped {h' : Heap} {p : Nat} (hwrap : 2 ^ 32 ≤ size + 15)
    (hcall : mmMalloc h size = some (h', p)) (hp : p ≠ 0) : ¬ CleanResult h size := by
  rintro ⟨g, q, bps, hcall', -, h0 | ⟨-, -, hcap⟩⟩
  · rw [hcall] at hcall'
    cases hcall'
    exact hp h0.1
  · have hle : getSize g.mem (hdrp q) ≤ 0xFFFFFFF8 := Nat.and_le_right
    omega

/-- Every free block is a fit for a size that wrapped. -/
theorem search_wrapped_none_iff {n : Nat} (R : Represents h a) (hn : n ≤ 16) :
    a.search n = none ↔ ∀ e ∈ entries h, e.alloc ≠ 0 := by
  rw [R.entries_eq]
  constructor
  · intro hs e he
    rcases List.mem_cons.mp he with rfl | he
    · exact Nat.one_ne_zero
    · obtain ⟨o, b, hb, rfl⟩ := mem_view.mp he
      have := b.minimum
      rw [ne_eq, b.entry_alloc_eq_zero]
      exact fun hfree => NextFit.search_none hs hb ⟨hfree, by omega⟩
  · intro hall
    cases hs : a.search n with
    | none => rfl
    | some o =>
        obtain ⟨b, hb, hfree, -⟩ := NextFit.search_some hs
        have hmem := R.mem_entries hb
        rw [R.entries_eq] at hmem
        exact (hall _ hmem ((b.entry_alloc_eq_zero _).mpr hfree)).elim

/-- From every state that a client reaches, a request ends cleanly exactly when its
size does not wrap, or when there is neither a free block nor room for a chunk. -/
theorem cleanResult_iff {c : Client} {size : Nat} (hreach : allocator.ReachableWhere Client.Valid c)
    (hlt : size < 2 ^ 32) :
    CleanResult c.heap size ↔ size + 15 < 2 ^ 32 ∨
      (∀ e ∈ entries c.heap, e.alloc ≠ 0) ∧ c.heap.memMaxAddr < c.heap.memBrk + CHUNKSIZE := by
  obtain ⟨b, M⟩ := reachable_simulates hreach
  by_cases hsize : size + 15 < 2 ^ 32
  · exact iff_of_true (clean_of_fits M.heap hsize) (Or.inl hsize)
  · have hwrap : adjustedSize size ≤ 8 := adjustedSize_of_wrapped hlt (by omega)
    have hadded : (Block.added size).size = CHUNKSIZE := by
      rw [Block.added_size, maxSize, if_neg]
      unfold CHUNKSIZE
      omega
    rw [← search_wrapped_none_iff M.heap (by omega : adjustedSize size ≤ 16), ← hadded]
    rcases mmMalloc_cases M.heap (by omega : size ≠ 0) with
      ⟨hs, hfull, hcall⟩ | ⟨hs, g, a', o, d, P, hcall⟩
    · exact iff_of_true (clean_of_null M.heap hcall) (Or.inr ⟨hs, hfull⟩)
    · refine iff_of_false (not_clean_of_wrapped (by omega) hcall P.pointer_ne_zero) ?_
      rintro (h | ⟨h, hfull⟩)
      · exact hsize h
      · rcases hs with hs | hs
        · exact hs h
        · omega

theorem sample_reachable : allocator.ReachableWhere Client.Valid sample :=
  ⟨sample, [], sample_init, trivial, rfl⟩

theorem sample_cleanResult_iff :
    CleanResult sample.heap (2 ^ 32 - 1) ↔ 2 ^ 32 - 1 + 15 < 2 ^ 32 ∨
      (∀ e ∈ entries sample.heap, e.alloc ≠ 0) ∧
        sample.heap.memMaxAddr < sample.heap.memBrk + CHUNKSIZE :=
  cleanResult_iff sample_reachable (by decide)

/-- The largest request on a fresh heap gets a block of eight bytes. -/
theorem exists_not_cleanResult :
    ∃ c size, allocator.ReachableWhere Client.Valid c ∧ size < 2 ^ 32 ∧
      ¬ CleanResult c.heap size := by
  refine ⟨sample, 2 ^ 32 - 1, sample_reachable, by decide, ?_⟩
  have hp : (mmMalloc sample.heap (2 ^ 32 - 1)).map Prod.snd = some 80 := by decide +kernel
  obtain ⟨⟨h', p⟩, hcall, rfl⟩ := Option.map_eq_some_iff.mp hp
  exact not_clean_of_wrapped (by decide) hcall (by decide)

end CompOrg.Malloc
