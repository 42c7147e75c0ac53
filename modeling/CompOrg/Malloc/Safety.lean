import CompOrg.Malloc.Client

/-! # Safety of the allocator over whole runs

The heap as its own macros read it: the blocks that `NEXT_BLKP` visits, the tags
of each, the cursor. What next fit guarantees for its list of blocks is read back
here from the words in memory, for every state that a client can reach.
-/

namespace CompOrg.Malloc

open Segments

/-! ## Heaps read through the macros -/

/-- Size and tags of the block with payload `bp`. -/
structure WellTagged (m : Memory) (bp : Nat) : Prop where
  aligned : getSize m (hdrp bp) % 8 = 0
  minimum : 16 ≤ getSize m (hdrp bp)
  tags : get m (hdrp bp) = get m (ftrp m bp)

/-- Following `NEXT_BLKP` from `p` visits exactly `bps`, each a well tagged block,
and ends at `brk`. -/
def Visits (m : Memory) (brk : Nat) : Nat → List Nat → Prop
  | p, [] => p = brk
  | p, bp :: bps => bp = p ∧ WellTagged m bp ∧ Visits m brk (nextBlkp m bp) bps

structure HeapWellFormed (h : Heap) (bps : List Nat) : Prop where
  listp : h.heapListp = h.memStartBrk + 8
  prologueHeader : get h.mem (h.memStartBrk + 4) = pack DSIZE 1
  prologueFooter : get h.mem (h.memStartBrk + 8) = pack DSIZE 1
  visits : Visits h.mem h.memBrk (h.memStartBrk + 16) bps
  epilogue : get h.mem (h.memBrk - 4) = pack 0 1
  separated : ∀ bp ∈ bps, getAlloc h.mem (hdrp bp) = 0 →
    getAlloc h.mem (hdrp (nextBlkp h.mem bp)) ≠ 0
  cursor : h.nextFitPointer = h.heapListp ∨ h.nextFitPointer ∈ bps

/-- Payload addresses of a list of blocks. -/
def addresses : Nat → List Block → List Nat
  | _, [] => []
  | p, b :: bs => p :: addresses (p + b.size) bs

theorem mem_addresses {start base p : Nat} {bs : List Block} :
    p ∈ addresses (start + base) bs ↔ ∃ o b, StartsAt Block.size base bs o b ∧ p = start + o := by
  induction bs generalizing base with
  | nil => simp [addresses]
  | cons b bs ih =>
      rw [addresses, List.mem_cons, Nat.add_assoc, ih]
      constructor
      · rintro (rfl | ⟨o, d, hd, rfl⟩)
        · exact ⟨base, b, Or.inl ⟨rfl, rfl⟩, rfl⟩
        · exact ⟨o, d, Or.inr hd, rfl⟩
      · rintro ⟨o, d, ⟨rfl, rfl⟩ | hd, rfl⟩
        · exact Or.inl rfl
        · exact Or.inr ⟨o, d, hd, rfl⟩

section Reading

variable {h : Heap} {pre post bs : List Block} {b : Block}

theorem Layout.wellTagged (L : Layout h (pre ++ b :: post)) :
    WellTagged h.mem (h.memStartBrk + firstOffset + span pre) := by
  refine ⟨?_, ?_, ?_⟩
  · rw [hdrp, WSIZE, L.size_eq]
    exact b.aligned
  · rw [hdrp, WSIZE, L.size_eq]
    exact b.minimum
  · rw [hdrp, WSIZE, L.ftrp_eq, L.tags.1, L.tags.2.1]

/-- The walk through a layout, from any of its blocks. -/
theorem Layout.visits (L : Layout h (pre ++ bs)) :
    Visits h.mem h.memBrk (h.memStartBrk + firstOffset + span pre)
      (addresses (h.memStartBrk + firstOffset + span pre) bs) := by
  induction bs generalizing pre with
  | nil =>
      have hbrk := L.brk
      rw [List.append_nil] at hbrk
      exact hbrk.symm
  | cons b bs ih =>
      have hnext := ih L.advance
      rw [span_append, span_cons, span_nil, Nat.add_zero] at hnext
      refine ⟨rfl, L.wellTagged, ?_⟩
      rw [L.nextBlkp_eq]
      rwa [Nat.add_assoc _ (span pre)]

theorem Layout.cut {o : Nat} (L : Layout h bs) (hb : StartsAt Block.size firstOffset bs o b) :
    ∃ pre post, Layout h (pre ++ b :: post) ∧ bs = pre ++ b :: post ∧
      h.memStartBrk + o = h.memStartBrk + firstOffset + span pre := by
  obtain ⟨pre, post, rfl, rfl⟩ := startsAt_iff_exists_append.mp hb
  exact ⟨pre, post, L, rfl, (Nat.add_assoc _ _ _).symm⟩

/-- What the abstract heap guarantees is what the macros read. -/
theorem Represents.heapWellFormed {a : NextFit} (R : Represents h a) :
    HeapWellFormed h (addresses (h.memStartBrk + 16) a.blocks) where
  listp := R.layout.listp
  prologueHeader := R.layout.prologueHeader
  prologueFooter := R.layout.prologueFooter
  visits := by
    have L : Layout h ([] ++ a.blocks) := R.layout
    exact L.visits
  epilogue := R.layout.epilogue
  separated := by
    intro bp hbp hfree
    obtain ⟨o, b, hb, rfl⟩ := mem_addresses.mp hbp
    obtain ⟨pre, post, L, hblocks, ho⟩ := R.layout.cut hb
    rw [ho] at hfree ⊢
    rw [hdrp, WSIZE, L.alloc_eq] at hfree
    rw [ne_eq, L.nextAlloc_eq_zero_iff]
    rintro ⟨n, rest, rfl, hn⟩
    have hsep := R.valid.separated
    rw [hblocks, separated_append_cons_cons] at hsep
    rcases hsep.2.1 with hb' | hn'
    · simp [hb'] at hfree
    · simp [hn] at hn'
  cursor := by
    rcases R.valid.cursor with hc | ⟨b, hb⟩
    · exact Or.inl (by rw [R.cursor, hc, R.layout.listp])
    · exact Or.inr (mem_addresses.mpr ⟨a.cursor, b, hb, R.cursor⟩)

theorem Represents.alloc_iff {a : NextFit} (R : Represents h a) (p : Nat) :
    (p ∈ addresses (h.memStartBrk + 16) a.blocks ∧ getAlloc h.mem (hdrp p) = 1) ↔
      ∃ o n, a.Alloc o n ∧ p = h.memStartBrk + o := by
  rw [show h.memStartBrk + 16 = h.memStartBrk + firstOffset from rfl, mem_addresses]
  constructor
  · rintro ⟨⟨o, b, hb, rfl⟩, halloc⟩
    obtain ⟨pre, post, L, -, ho⟩ := R.layout.cut hb
    rw [ho, hdrp, WSIZE, L.alloc_eq] at halloc
    exact ⟨o, b.size, ⟨b, hb, by simpa using halloc, rfl⟩, rfl⟩
  · rintro ⟨o, n, ⟨b, hb, halloc, -⟩, rfl⟩
    obtain ⟨pre, post, L, -, ho⟩ := R.layout.cut hb
    refine ⟨⟨o, b, hb, rfl⟩, ?_⟩
    rw [ho, hdrp, WSIZE, L.alloc_eq, halloc]
    rfl

/-- Size and footer address of an allocated block, as the macros read them. -/
theorem Represents.read_alloc {a : NextFit} {o n : Nat} (R : Represents h a)
    (halloc : a.Alloc o n) :
    getSize h.mem (hdrp (h.memStartBrk + o)) = n ∧
      ftrp h.mem (h.memStartBrk + o) = h.memStartBrk + o + n - 8 := by
  obtain ⟨b, hb, -, rfl⟩ := halloc
  obtain ⟨pre, post, L, -, ho⟩ := R.layout.cut hb
  rw [ho, L.ftrp_eq, hdrp, WSIZE, L.size_eq]
  exact ⟨rfl, rfl⟩

end Reading

/-! ## Well-formedness -/

/-- Every valid run of calls and client writes goes through and ends in a heap
whose tags describe consecutive blocks up to the break, no two neighbours free,
with the cursor at the prologue or at one of the blocks. -/
theorem run_heapWellFormed {c : Client} {es : List Event} (hinit : allocator.init c)
    (hvalid : allocator.Meets Client.Valid c es) :
    ∃ c', allocator.run c es = some c' ∧ ∃ bps, HeapWellFormed c'.heap bps := by
  obtain ⟨c', hrun, b, M⟩ := run_simulates hinit hvalid
  exact ⟨c', hrun, _, M.heap.heapWellFormed⟩

/-- A client on a heap over counting bytes, its globals left at some values. -/
def sample : Client := ⟨(mmInit (memResetBrk (memInit UInt8.ofNat 64 1 5))).1, []⟩

theorem sample_init : allocator.init sample :=
  ⟨memInit UInt8.ofNat 64 1 5, rfl, rfl, by decide, (mmInit_represents rfl rfl (by decide)).1, rfl⟩

/-- Split, client write, growth of the heap, copy, coalescing. -/
def sampleRun : List Event :=
  [.call (.malloc 10), .write 0 3 255, .call (.malloc 5000), .call (.malloc 8),
    .call (.realloc 0 30), .call (.free 1)]

theorem sampleRun_heapWellFormed :
    ∃ c', allocator.run sample sampleRun = some c' ∧ ∃ bps, HeapWellFormed c'.heap bps :=
  run_heapWellFormed sample_init (by decide +kernel)

/-! ## The live set -/

/-- The allocated blocks of the heap are the live pointers, each once; a payload is
aligned, ends before the footer of its block and meets no other payload. -/
structure LiveExact (c : Client) : Prop where
  exact : ∃ bps, Visits c.heap.mem c.heap.memBrk (c.heap.memStartBrk + 16) bps ∧
    ∀ p, (p ∈ bps ∧ getAlloc c.heap.mem (hdrp p) = 1) ↔ p ∈ c.live.map Prod.fst
  once : (c.live.map Prod.fst).Nodup
  aligned : ∀ p size, (p, size) ∈ c.live → p % 8 = 0
  inBlock : ∀ p size, (p, size) ∈ c.live → p + size ≤ ftrp c.heap.mem p
  inHeap : ∀ p size, (p, size) ∈ c.live → ∀ x, p ≤ x → x < p + size →
    memHeapLo c.heap ≤ x ∧ x ≤ memHeapHi c.heap
  disjoint : ∀ p size q n, (p, size) ∈ c.live → (q, n) ∈ c.live → p ≠ q →
    p + size ≤ q ∨ q + n ≤ p

section LiveExact

variable {c : Client} {b : Pool}

theorem Simulates.mem_live {p size : Nat} (M : Simulates c b) (h : (p, size) ∈ c.live) :
    ∃ o n, p = c.heap.memStartBrk + o ∧ b.next.Alloc o n ∧ size + 8 ≤ n := by
  rw [M.live] at h
  obtain ⟨⟨o, s⟩, he, heq⟩ := List.mem_map.mp h
  obtain ⟨rfl, rfl⟩ := Prod.mk.inj heq
  obtain ⟨n, hn, hle⟩ := M.valid.roomy o s he
  exact ⟨o, n, rfl, hn, hle⟩

theorem Simulates.mem_pointers (M : Simulates c b) (p : Nat) :
    p ∈ c.live.map Prod.fst ↔ ∃ o n, b.next.Alloc o n ∧ p = c.heap.memStartBrk + o := by
  constructor
  · intro h
    obtain ⟨⟨p, s⟩, he, rfl⟩ := List.mem_map.mp h
    obtain ⟨o, n, hp, hn, -⟩ := M.mem_live he
    exact ⟨o, n, hn, hp⟩
  · rintro ⟨o, n, hn, rfl⟩
    obtain ⟨⟨o, s⟩, he, rfl⟩ := List.mem_map.mp (M.valid.listed o n hn)
    rw [M.live, List.map_map]
    exact List.mem_map.mpr ⟨(o, s), he, rfl⟩

theorem Simulates.liveExact (M : Simulates c b) : LiveExact c where
  exact := by
    refine ⟨_, M.heap.heapWellFormed.visits, fun p => ?_⟩
    rw [M.heap.alloc_iff, M.mem_pointers]
  once := by
    rw [M.live, List.map_map]
    have h := M.valid.distinct.map (add_right_injective c.heap.memStartBrk)
    rwa [List.map_map] at h
  aligned := by
    intro p size h
    obtain ⟨o, n, rfl, ⟨d, hd, -⟩, -⟩ := M.mem_live h
    have := startsAt_aligned hd rfl
    have := M.heap.layout.aligned
    omega
  inBlock := by
    intro p size h
    obtain ⟨o, n, rfl, hn, hle⟩ := M.mem_live h
    rw [(M.heap.read_alloc hn).2]
    omega
  inHeap := by
    intro p size h x hlo hhi
    obtain ⟨o, n, rfl, hn, hle⟩ := M.mem_live h
    have := AllocAt.bounds hn
    have := M.heap.layout.brk
    unfold memHeapLo memHeapHi
    omega
  disjoint := by
    intro p size q m h h' hne
    obtain ⟨o, n, rfl, hn, hle⟩ := M.mem_live h
    obtain ⟨o', n', rfl, hn', hle'⟩ := M.mem_live h'
    have := AllocAt.disjoint hn hn' (by omega)
    omega

end LiveExact

/-- In every state that a client reaches, no block is lost, duplicated or
overlapped. -/
theorem run_liveExact {c : Client} {es : List Event} (hinit : allocator.init c)
    (hvalid : allocator.Meets Client.Valid c es) :
    ∃ c', allocator.run c es = some c' ∧ LiveExact c' := by
  obtain ⟨c', hrun, b, M⟩ := run_simulates hinit hvalid
  exact ⟨c', hrun, M.liveExact⟩

theorem sampleRun_liveExact : ∃ c', allocator.run sample sampleRun = some c' ∧ LiveExact c' :=
  run_liveExact sample_init (by decide +kernel)

/-! ## Frames of calls -/

/-- The whole payload capacity, the header and the footer of the block at `q`. -/
def SameBlock (m m' : Memory) (q : Nat) : Prop :=
  (∀ x, q ≤ x → x < q + getSize m (hdrp q) - 8 → m' x = m x) ∧
    get m' (hdrp q) = get m (hdrp q) ∧ get m' (ftrp m q) = get m (ftrp m q)

theorem Simulates.operand_eq {c : Client} {b : Pool} (M : Simulates c b) (call : Call) :
    call.operand c.live = (call.operand b.live).map (c.heap.memStartBrk + ·) := by
  cases call with
  | malloc size => rfl
  | free k => simp [Call.operand, M.get_eq, Function.comp_def]
  | realloc k size => simp [Call.operand, M.get_eq, Function.comp_def]

/-- From every state that a client reaches, a call returns and leaves every live
block other than its operand as it was. -/
theorem invoke_sameBlock {c : Client} {call : Call}
    (hreach : allocator.ReachableWhere Client.Valid c) (hcall : c.Valid (.call call)) :
    ∃ c' r, c.invoke call = some (c', r) ∧ ∀ q ∈ c.live.map Prod.fst,
      call.operand c.live ≠ some q → SameBlock c.heap.mem c'.heap.mem q := by
  obtain ⟨b, M⟩ := reachable_simulates hreach
  obtain ⟨c', hinvoke, -, -, hkeep⟩ := invoke_refines M (M.length_eq ▸ hcall : call.Valid _)
  refine ⟨c', _, hinvoke, fun q hq hne => ?_⟩
  obtain ⟨o, n, hn, rfl⟩ := (M.mem_pointers q).mp hq
  obtain ⟨hsize, hftrp⟩ := M.heap.read_alloc hn
  have hbounds := AllocAt.bounds hn
  have hmin := (AllocAt.minimum hn).1
  have hoff : firstOffset = 16 := rfl
  have hsame := hkeep o n hn fun heq => hne (by rw [M.operand_eq, heq]; rfl)
  refine ⟨fun x hlo hhi => ?_, ?_, ?_⟩
  · rw [hsize] at hhi
    exact hsame x (by omega) (by omega)
  · exact Memory.readWord_congr fun x hlo hhi =>
      hsame x (by unfold hdrp WSIZE at hlo; omega) (by unfold hdrp WSIZE at hhi; omega)
  · rw [hftrp]
    exact Memory.readWord_congr fun x hlo hhi => hsame x (by omega) (by omega)

/-- The sample client after its run, with two live pointers. -/
def sampleLater : Client := allocator.after sample sampleRun

theorem sampleLater_reachable : allocator.ReachableWhere Client.Valid sampleLater := by
  have hvalid : allocator.Meets Client.Valid sample sampleRun := by decide +kernel
  obtain ⟨c, hrun, -⟩ := run_simulates sample_init hvalid
  exact ⟨sample, sampleRun, sample_init, hvalid, allocator.run_eq_after (by simp [hrun])⟩

theorem sampleLater_sameBlock :
    ∃ c' r, sampleLater.invoke (.free 0) = some (c', r) ∧
      ∀ q ∈ sampleLater.live.map Prod.fst, (Call.free 0).operand sampleLater.live ≠ some q →
        SameBlock sampleLater.heap.mem c'.heap.mem q :=
  invoke_sameBlock sampleLater_reachable (by decide +kernel)

end CompOrg.Malloc
