import CompOrg.Malloc.AnySize
import CompOrg.Malloc.FreeOrder

/-! # What `mm_realloc` copies

The length of the copy is the smaller of the request and the size of the whole old
block. The bytes that the client asked for arrive at the new block, and nothing is
written outside its payload; what is read from the old block ends inside its
payload only for requests that would have fitted there.
-/

namespace CompOrg.Malloc

open Memory Segments

/-! ## Bytes that arrive -/

section Arrive

variable {h g : Heap} {a b : NextFit} {o p k m size : Nat}

/-- The header of the old block is still there when the copy reads it. -/
theorem Reallocating.copyLength_eq (S : Reallocating h a size p g b k) (halloc : a.Alloc o m) :
    copyLength g (h.memStartBrk + o) size = if size < m then size else m := by
  have hread := (S.represents.read_alloc (S.old halloc)).1
  rw [S.start] at hread
  rw [copyLength, hread]

theorem Reallocating.byte_eq (S : Reallocating h a size p g b k) (halloc : a.Alloc o m) {i : Nat}
    (hi : i < size) (him : i + 8 ≤ m) :
    (mmFree (reallocCopy g (h.memStartBrk + p) (h.memStartBrk + o) size)
      (h.memStartBrk + o)).mem (h.memStartBrk + p + i) = h.mem (h.memStartBrk + o + i) := by
  obtain ⟨-, -, hfreed⟩ := S.freed halloc
  have hroom := S.room
  have hlen : i < copyLength g (h.memStartBrk + o) size := by
    rw [S.copyLength_eq halloc]
    split <;> omega
  calc _ = (reallocCopy g (h.memStartBrk + p) (h.memStartBrk + o) size).mem
          (h.memStartBrk + p + i) :=
        hfreed p k S.new (S.ne halloc).symm _ (by omega) (by omega)
    _ = g.mem (h.memStartBrk + o + i) := by
        dsimp only [reallocCopy]
        rw [copyBytes, if_pos (by omega), Nat.add_sub_cancel_left]
    _ = h.mem (h.memStartBrk + o + i) := S.keeps o m halloc _ (by omega) (by omega)

theorem Reallocating.disjoint (S : Reallocating h a size p g b k) (halloc : a.Alloc o m) :
    h.memStartBrk + p + copyLength g (h.memStartBrk + o) size ≤ h.memStartBrk + o ∨
      h.memStartBrk + o + copyLength g (h.memStartBrk + o) size ≤ h.memStartBrk + p := by
  have hroom := S.room
  have hle := copyLength_le g (h.memStartBrk + o) size
  have hlen := S.copyLength_eq halloc
  have hm : copyLength g (h.memStartBrk + o) size ≤ m := by
    rw [hlen]
    split <;> omega
  rcases AllocAt.disjoint (S.old halloc) S.new (S.ne halloc) with h' | h' <;> omega

end Arrive

/-- From every state that a client reaches, a reallocation that succeeds moves the
requested bytes to a block of its own and leaves the old block in a free one; the
copy stays inside the new payload, and nothing else is written by it. -/
theorem mmRealloc_preserves {c : Client} {ptr n size newptr : Nat} {h' : Heap}
    (hreach : allocator.ReachableWhere Client.Valid c) (hlive : (ptr, n) ∈ c.live)
    (hpos : 0 < size) (hsize : size + 15 < 2 ^ 32)
    (hcall : mmRealloc c.heap ptr size = some (h', newptr)) (hnew : newptr ≠ 0) :
    newptr ∉ c.live.map Prod.fst ∧
      (∃ e ∈ entries h', e.addr = newptr ∧ e.alloc = 1 ∧ size ≤ e.size - 8) ∧
      (∀ i, i < min n size → h'.mem (newptr + i) = c.heap.mem (ptr + i)) ∧
      (∃ e ∈ entries h', e.alloc = 0 ∧ e.addr ≤ ptr ∧
        ptr + getSize c.heap.mem (hdrp ptr) ≤ e.addr + e.size) ∧
      ∃ g, mmMalloc c.heap size = some (g, newptr) ∧
        h' = mmFree (reallocCopy g newptr ptr size) ptr ∧
        SameOutside g.mem (reallocCopy g newptr ptr size).mem newptr (ftrp g.mem newptr) ∧
        newptr + copyLength g ptr size ≤ ftrp g.mem newptr ∧
        (newptr + copyLength g ptr size ≤ ptr ∨ ptr + copyLength g ptr size ≤ newptr) := by
  obtain ⟨b, M⟩ := reachable_simulates hreach
  obtain ⟨o, m, rfl, halloc, hroom⟩ := M.mem_live hlive
  have hz : size ≠ 0 := by omega
  rcases hm : b.next.malloc size with ⟨a', _ | p⟩
  · -- refused: the result would be `NULL`
    rw [mmRealloc, if_neg hz, if_neg (address_ne_zero _ halloc),
      mmMalloc_of_none M.heap hsize (by rw [hm])] at hcall
    cases hcall
    exact (hnew rfl).elim
  · obtain ⟨g, k, S⟩ := reallocating_of_some M.heap hsize hm
    obtain ⟨Rf, hstart, -⟩ := S.freed halloc
    obtain ⟨rfl, rfl⟩ := Prod.mk.inj (Option.some.inj (hcall.symm.trans (S.result halloc hz)))
    have hk := S.room
    have hftrp := (S.represents.read_alloc S.new).2
    rw [S.start] at hftrp
    refine ⟨?_, ?_, ?_, ?_, g, S.call, rfl, ?_, ?_, S.disjoint halloc⟩
    · intro hmem
      obtain ⟨q, j, hq, heq⟩ := (M.mem_pointers _).mp hmem
      obtain rfl := Nat.add_left_cancel heq
      exact S.fresh j hq
    · obtain ⟨pre, d, post, hblocks, ho, -, -⟩ := (S.old halloc).cut
      obtain ⟨d, hd, hbit, hsize'⟩ :=
        (NextFit.alloc_free hblocks ho p k).mpr ⟨S.new, (S.ne halloc).symm⟩
      have hmem := Rf.mem_entries hd
      rw [hstart] at hmem
      exact ⟨_, hmem, rfl, by rw [Block.entry, hbit]; rfl, by rw [Block.entry_size]; omega⟩
    · intro i hi
      exact S.byte_eq halloc (by omega) (by omega)
    · obtain ⟨r, e, he, hfree, hle, hend⟩ := NextFit.free_covers (S.old halloc)
      have hmem := Rf.mem_entries he
      rw [hstart] at hmem
      rw [(M.heap.read_alloc halloc).1]
      exact ⟨_, hmem, (e.entry_alloc_eq_zero _).mpr hfree, by rw [Block.entry_addr]; omega,
        by rw [Block.entry_addr, Block.entry_size]; omega⟩
    · rw [hftrp]
      exact reallocCopy_sameOutside g _ _ hk
    · have hle := copyLength_le g (c.heap.memStartBrk + o) size
      rw [hftrp]
      omega

theorem sampleLater_realloc_preserves :
    ∃ h', mmRealloc sampleLater.heap 5128 60 = some (h', 5168) ∧
      5168 ∉ sampleLater.live.map Prod.fst ∧
      (∃ e ∈ entries h', e.addr = 5168 ∧ e.alloc = 1 ∧ 60 ≤ e.size - 8) ∧
      (∀ i, i < min 30 60 → h'.mem (5168 + i) = sampleLater.heap.mem (5128 + i)) ∧
      (∃ e ∈ entries h', e.alloc = 0 ∧ e.addr ≤ 5128 ∧
        5128 + getSize sampleLater.heap.mem (hdrp 5128) ≤ e.addr + e.size) ∧
      ∃ g, mmMalloc sampleLater.heap 60 = some (g, 5168) ∧
        h' = mmFree (reallocCopy g 5168 5128 60) 5128 ∧
        SameOutside g.mem (reallocCopy g 5168 5128 60).mem 5168 (ftrp g.mem 5168) ∧
        5168 + copyLength g 5128 60 ≤ ftrp g.mem 5168 ∧
        (5168 + copyLength g 5128 60 ≤ 5128 ∨ 5128 + copyLength g 5128 60 ≤ 5168) := by
  have hp : (mmRealloc sampleLater.heap 5128 60).map Prod.snd = some 5168 := by decide +kernel
  obtain ⟨⟨h', p⟩, hcall, rfl⟩ := Option.map_eq_some_iff.mp hp
  exact ⟨h', hcall, mmRealloc_preserves sampleLater_reachable (by decide +kernel) (by decide)
    (by decide) hcall (by decide)⟩

/-! ## Bytes that leave the old block -/

/-- The tag writes of `place`, for any aligned size that fits, also one that is less
than a block: they start at most one word in front of the header. -/
theorem place_frame {h : Heap} {bp asize csize : Nat} (hbp : 8 ≤ bp)
    (hsize : getSize h.mem (bp - 4) = csize) (hc : csize % 8 = 0) (hmin : 16 ≤ csize)
    (hlt : csize < 2 ^ 32) (ha : asize % 8 = 0) (hfit : asize ≤ csize) :
    SameOutside h.mem (place h bp asize).mem (bp - 8) (bp + csize - 4) := by
  have hrest : sizeT (csize + 2 ^ 32 - asize) = csize - asize := by
    unfold sizeT
    omega
  have hread : ∀ (m : Memory) (p size alloc : Nat), size % 8 = 0 → size < 2 ^ 32 → alloc < 2 →
      getSize (put m p (pack size alloc)) p = size := fun m p size alloc h8 h32 h2 =>
    getSize_of_get (get_put_same (pack_lt h8 h32 (by omega))) h8 h32 (by omega)
  simp only [place, hdrp, WSIZE, DSIZE, hsize, hrest]
  split
  next hbig =>
    have hasize := hread h.mem (bp - 4) asize 1 ha (by omega) (by decide)
    simp only [ftrp, nextBlkp, hdrp, WSIZE, DSIZE, hasize]
    rw [getSize_put_of_disjoint (by omega), hasize, hread _ _ _ _ (by omega) (by omega) (by decide)]
    have hhead : SameOutside h.mem (put h.mem (bp - 4) (pack asize 1)) (bp - 8)
        (bp + csize - 4) := sameOutside_put (by omega) (by omega)
    have hfoot : SameOutside h.mem (put (put h.mem (bp - 4) (pack asize 1)) (bp + asize - 8)
        (pack asize 1)) (bp - 8) (bp + csize - 4) :=
      hhead.trans (sameOutside_put (by omega) (by omega))
    exact (hfoot.trans (sameOutside_put (by omega) (by omega))).trans
      (sameOutside_put (by omega) (by omega))
  next =>
    simp only [ftrp, hdrp, WSIZE, DSIZE, hread h.mem (bp - 4) csize 1 hc hlt (by decide)]
    exact (sameOutside_put (by omega) (by omega)).trans (sameOutside_put (by omega) (by omega))

theorem Placing.getSize_alloc {h g : Heap} {a a' : NextFit} {asize o q n : Nat} {b : Block}
    (P : Placing h a asize g a' o b) (ha : asize % 8 = 0) (halloc : a.Alloc q n) :
    getSize (place g (h.memStartBrk + o) asize).mem (hdrp (h.memStartBrk + q)) = n := by
  have hold := (P.alloc q n).mpr halloc
  obtain ⟨pre, post, L, -, ho⟩ := P.represents.layout.cut P.block
  have hread := (P.represents.read_alloc hold).1
  have hsize := L.size_eq
  rw [← ho, P.start] at hsize
  rw [P.start] at hread
  have hbounds := P.block.bounds.1
  have hqbounds := AllocAt.bounds hold
  have hoff : firstOffset = 16 := rfl
  have hframe := place_frame (by omega) hsize b.aligned b.minimum L.size_lt ha P.fits
  rw [← hread]
  unfold getSize
  congr 1
  refine hframe.readWord_eq ?_
  -- the free block and the allocated one lie apart
  obtain ⟨d, hd, hbit, -⟩ := hold
  have hne : q ≠ o := by
    rintro rfl
    have hfree := P.free
    rw [P.block.unique (fun e _ => e.size_pos) hd, hbit] at hfree
    simp at hfree
  have hmin := d.minimum
  unfold hdrp WSIZE
  rcases Nat.lt_or_gt_of_ne hne with hlt | hlt
  · have := hd.end_le_of_lt P.block hlt
    omega
  · have := P.block.end_le_of_lt hd hlt
    omega

/-- The bytes that the copy reads lie in the payload of the old block. -/
def CopiesPayload (h g : Heap) (ptr size : Nat) : Prop :=
  ∀ x, ptr ≤ x → x < ptr + copyLength g ptr size → x < ptr + (getSize h.mem (hdrp ptr) - 8)

theorem copiesPayload_iff {h g : Heap} {ptr size n : Nat} (hn : 16 ≤ n)
    (hold : getSize h.mem (hdrp ptr) = n) (hnow : getSize g.mem (hdrp ptr) = n) :
    CopiesPayload h g ptr size ↔ size ≤ n - 8 := by
  unfold CopiesPayload copyLength
  rw [hold, hnow]
  dsimp only
  constructor
  · intro hall
    by_contra hlt
    have := hall (ptr + (n - 8)) (by omega) (by split <;> omega)
    omega
  · intro hle x hlo hhi
    split at hhi <;> omega

/-- From every state that a client reaches, a reallocation that succeeds copies
payload only exactly when the request would have fitted into the old block. -/
theorem mmRealloc_copiesPayload_iff {c : Client} {ptr n size newptr : Nat} {h' : Heap}
    (hreach : allocator.ReachableWhere Client.Valid c) (hlive : (ptr, n) ∈ c.live)
    (hpos : 0 < size) (hcall : mmRealloc c.heap ptr size = some (h', newptr))
    (hnew : newptr ≠ 0) :
    ∃ g, mmMalloc c.heap size = some (g, newptr) ∧
      h' = mmFree (reallocCopy g newptr ptr size) ptr ∧
      (reallocCopy g newptr ptr size).mem =
        copyBytes g.mem newptr ptr (copyLength g ptr size) ∧
      (CopiesPayload c.heap g ptr size ↔ size ≤ getSize c.heap.mem (hdrp ptr) - 8) := by
  obtain ⟨b, M⟩ := reachable_simulates hreach
  obtain ⟨o, m, rfl, halloc, -⟩ := M.mem_live hlive
  have hz : size ≠ 0 := by omega
  rw [mmRealloc, if_neg hz, if_neg (address_ne_zero _ halloc)] at hcall
  rcases mmMalloc_cases M.heap hz with ⟨-, -, hm⟩ | ⟨-, g, a', p, d, P, hm⟩
  · rw [hm] at hcall
    cases hcall
    exact (hnew rfl).elim
  · rw [hm] at hcall
    simp only [if_neg P.pointer_ne_zero] at hcall
    obtain ⟨rfl, rfl⟩ := Prod.mk.inj (Option.some.inj hcall)
    have hold := (M.heap.read_alloc halloc).1
    refine ⟨_, hm, rfl, rfl, ?_⟩
    rw [hold]
    exact copiesPayload_iff (AllocAt.minimum halloc).1 hold
      (P.getSize_alloc (adjustedSize_aligned size) halloc)

theorem sampleLater_copiesPayload_iff :
    ∃ h' g, mmRealloc sampleLater.heap 5128 60 = some (h', 5168) ∧
      mmMalloc sampleLater.heap 60 = some (g, 5168) ∧
      h' = mmFree (reallocCopy g 5168 5128 60) 5128 ∧
      (reallocCopy g 5168 5128 60).mem = copyBytes g.mem 5168 5128 (copyLength g 5128 60) ∧
      (CopiesPayload sampleLater.heap g 5128 60 ↔
        60 ≤ getSize sampleLater.heap.mem (hdrp 5128) - 8) := by
  have hp : (mmRealloc sampleLater.heap 5128 60).map Prod.snd = some 5168 := by decide +kernel
  obtain ⟨⟨h', p⟩, hcall, rfl⟩ := Option.map_eq_some_iff.mp hp
  obtain ⟨g, h⟩ := mmRealloc_copiesPayload_iff (n := 30) sampleLater_reachable
    (by decide +kernel) (by decide) hcall (by decide)
  exact ⟨h', g, hcall, h⟩

/-- A block of forty bytes, grown to sixty: its footer and the header behind it are
copied too. -/
theorem exists_not_copiesPayload :
    ∃ c ptr n size newptr h' g, allocator.ReachableWhere Client.Valid c ∧ (ptr, n) ∈ c.live ∧
      0 < size ∧ mmRealloc c.heap ptr size = some (h', newptr) ∧ newptr ≠ 0 ∧
      mmMalloc c.heap size = some (g, newptr) ∧ ¬ CopiesPayload c.heap g ptr size := by
  have hp : (mmRealloc sampleLater.heap 5128 60).map Prod.snd = some 5168 := by decide +kernel
  obtain ⟨⟨h', p⟩, hcall, rfl⟩ := Option.map_eq_some_iff.mp hp
  have hm : (mmMalloc sampleLater.heap 60).map (fun r => (r.2, getSize r.1.mem (hdrp 5128))) =
      some (5168, 40) := by decide +kernel
  obtain ⟨⟨g, q⟩, hmalloc, heq⟩ := Option.map_eq_some_iff.mp hm
  obtain ⟨rfl, hnow⟩ := Prod.mk.inj heq
  have hold : getSize sampleLater.heap.mem (hdrp 5128) = 40 := by decide +kernel
  refine ⟨sampleLater, 5128, 30, 60, 5168, h', g, sampleLater_reachable, by decide +kernel,
    by decide, hcall, by decide, hmalloc, ?_⟩
  rw [copiesPayload_iff (by decide) hold hnow]
  decide

end CompOrg.Malloc
