import CompOrg.Lib.TransitionSystem
import CompOrg.Malloc.Replay

/-! # The verdict of `eval_mm_valid`

On every trace that names live ids only, the check of the driver comes to the
verdict of next fit. Two complaints tell of a request that next fit refuses. The
third one is the driver's own: it compares a signed `char` with a low byte, so the
contents of a block whose id has a low byte from 128 on are never found again, and
the first reallocation of such a block is reported as a loss of data.
-/

namespace CompOrg.Malloc

open Memory

/-! ## The verdict of next fit -/

namespace Replay

/-- The complaint about one request, or the replay after it. -/
def judge (r : Replay) (op : TraceOp) : Except Complaint Replay :=
  match r.serve op with
  | none => .error (if op.type = .realloc then .reallocFailed else .mallocFailed)
  | some r =>
      if op.type = .realloc ∧ 128 ≤ op.index % 256 then .error .notPreserved else .ok r

/-- The first complaint, with the number of its request. -/
def verdict (tracenum : Nat) : Nat → Replay → List TraceOp → Option Report
  | _, _, [] => none
  | i, r, op :: ops =>
      match r.judge op with
      | .error c => some ⟨tracenum, i, c⟩
      | .ok r => verdict tracenum (i + 1) r ops

/-- The requests in order; a run goes through when next fit serves all of them. -/
def replay : System Replay TraceOp where
  init r := r = initial
  step := serve

/-- The contents of the block of an id that is reallocated can be recognised. -/
def Recognisable (op : TraceOp) : Prop := op.type = .realloc → op.index % 256 < 128

theorem judge_ok_iff {r r' : Replay} {op : TraceOp} :
    r.judge op = .ok r' ↔ r.serve op = some r' ∧ Recognisable op := by
  unfold judge Recognisable
  rcases r.serve op with _ | r''
  · simp
  · dsimp only
    split
    next h =>
      simp only [reduceCtorEq, false_iff, not_and]
      intro _ hrec
      have := hrec h.1
      omega
    next h =>
      rw [Except.ok.injEq, Option.some.injEq]
      refine ⟨fun heq => ⟨heq, fun ht => ?_⟩, And.left⟩
      by_contra hge
      exact h ⟨ht, by omega⟩

/-- There is nothing to complain about when every request is served and the contents
of every reallocated block can be recognised. -/
theorem verdict_none_iff {tracenum i : Nat} {r : Replay} {ops : List TraceOp} :
    r.verdict tracenum i ops = none ↔
      (∃ r', replay.run r ops = some r') ∧ ∀ op ∈ ops, Recognisable op := by
  induction ops generalizing i r with
  | nil => simp [verdict]
  | cons op ops ih =>
      rw [verdict, List.forall_mem_cons]
      cases hj : r.judge op with
      | error c =>
          simp only [reduceCtorEq, false_iff]
          rintro ⟨⟨r', hrun⟩, hrec, -⟩
          obtain ⟨m, hm, -⟩ := replay.run_cons_some hrun
          rw [judge_ok_iff.mpr ⟨hm, hrec⟩] at hj
          cases hj
      | ok r' =>
          obtain ⟨hserve, hrec⟩ := judge_ok_iff.mp hj
          have hstep : replay.step r op = some r' := hserve
          dsimp only
          rw [ih, System.run_cons, hstep, Option.bind_some, and_iff_right hrec]

end Replay

/-! ## Bytes as the check sees them -/

theorem lowByte_eq (i : Nat) : UInt8.ofNat ((i : Int) % 256).toNat = UInt8.ofNat i := by
  apply UInt8.toNat_inj.mp
  rw [UInt8.toNat_ofNat', UInt8.toNat_ofNat']
  omega

theorem charValue_eq_iff (i : Nat) :
    charValue (UInt8.ofNat i) = (i : Int) % 256 ↔ ¬ 128 ≤ (i : Int) % 256 := by
  unfold charValue
  rw [UInt8.toNat_ofNat']
  split <;> omega

/-- Bytes filled with an id pass the check exactly when its low byte is below 128. -/
theorem preserved_iff {m : Memory} {newp i : Nat} {oldsize : Int} (hpos : 0 < oldsize)
    (hfill : ∀ j < oldsize.toNat, m (newp + j) = UInt8.ofNat i) :
    preserved m newp oldsize i ↔ ¬ 128 ≤ (i : Int) % 256 := by
  rw [← charValue_eq_iff]
  constructor
  · intro h
    rw [← hfill 0 (by omega)]
    exact h 0 (by omega)
  · intro h j hj
    rw [hfill j hj]
    exact h

/-! ## Payloads of allocated blocks -/

section Payloads

variable {h : Heap} {a : NextFit} {o n p k s t : Nat} {size : Int}

/-- The range of `s` bytes in an allocated block at the offset `o`. -/
structure PayloadIn (start : Nat) (a : NextFit) (o s : Nat) (q : Range Nat) : Prop where
  alloc : ∃ n, a.Alloc o n ∧ s + 8 ≤ n
  positive : 0 < s
  range : q = payload (start + o) s

theorem addRange_of_alloc {ranges : List (Range Nat)} (R : Represents h a) (halloc : a.Alloc o n)
    (hroom : size.toNat + 8 ≤ n) (hpos : 0 < size)
    (hlisted : ∀ q ∈ ranges, ∃ p s, p ≠ o ∧ PayloadIn h.memStartBrk a p s q) :
    addRange h ranges (h.memStartBrk + o) size =
      some (.ok (payload (h.memStartBrk + o) size :: ranges)) := by
  have L := R.layout
  have hbounds := AllocAt.bounds halloc
  have hbrk := L.brk
  have hmax := L.inBounds
  have haddr := L.addressable
  refine addRange_ok_iff.mpr ⟨hpos, ?_, ?_, ?_, rfl⟩
  · obtain ⟨b, hb, -⟩ := halloc
    have := startsAt_aligned hb rfl
    have := L.aligned
    unfold isAligned sizeT ALIGNMENT
    omega
  · unfold insideHeap memHeapLo memHeapHi payload
    dsimp only
    omega
  · intro q hq hends
    obtain ⟨p, s, hne, ⟨m, hm, hs⟩, hspos, rfl⟩ := hlisted q hq
    have hmeets := hends.meets (payload_le hpos)
    rw [Range.meets_iff_le (payload_le hpos) (payload_le (by omega))] at hmeets
    have := AllocAt.disjoint halloc hm (Ne.symm hne)
    unfold payload at hmeets
    dsimp only at hmeets
    omega

theorem fill_represents (R : Represents h a) (halloc : a.Alloc o n) (index : Int)
    (h0 : 0 ≤ size) (hlt : size < 2 ^ 31) (hroom : size.toNat + 8 ≤ n) :
    Represents (h.fill (h.memStartBrk + o) index size) a ∧
      KeepsOthers h.memStartBrk a o h.mem (h.fill (h.memStartBrk + o) index size).mem := by
  refine represents_payload R halloc ?_
  rw [sizeArg_eq h0 hlt]
  exact (sameOutside_fillBytes _ _ _ _).mono (Nat.le_refl _) (by omega)

end Payloads

/-- Where the starts differ, the range taken out is the only one that starts there. -/
theorem mem_removeRange {ranges : List (Range Nat)} {lo : Nat} {q : Range Nat}
    (hnodup : (ranges.map Range.lo).Nodup) :
    q ∈ removeRange ranges lo ↔ q ∈ ranges ∧ q.lo ≠ lo := by
  induction ranges with
  | nil => simp [removeRange]
  | cons p ranges ih =>
      obtain ⟨hp, hrest⟩ := List.nodup_cons.mp hnodup
      rw [removeRange]
      split
      next heq =>
        have hne : ∀ q ∈ ranges, q.lo ≠ lo := fun q hq hlo =>
          hp (List.mem_map.mpr ⟨q, hq, hlo.trans heq.symm⟩)
        rw [List.mem_cons, or_and_right]
        constructor
        · exact fun hq => Or.inr ⟨hq, hne q hq⟩
        · rintro (⟨rfl, hlo⟩ | ⟨hq, -⟩)
          · exact (hlo heq).elim
          · exact hq
      next hne =>
        rw [List.mem_cons, List.mem_cons, ih hrest, or_and_right]
        refine or_congr_left ⟨fun hq => ⟨hq, ?_⟩, And.left⟩
        exact hq ▸ hne

/-! ## One request -/

/-- What the loop of the check keeps besides the heap: the sizes, the bytes that the
blocks were filled with, and a range list of payloads only. -/
structure Checks (d : Driver) (r : Replay) : Prop where
  tracks : Tracks d.heap d.blocks r
  sizes : ∀ i o s, r.held i = some (o, s) → d.blockSizes i = s ∧ 0 < s ∧ s < 2 ^ 31
  filled : ∀ i o s, r.held i = some (o, s) →
    ∀ j < s, d.heap.mem (d.heap.memStartBrk + o + j) = UInt8.ofNat i
  listed : ∀ q ∈ d.ranges, ∃ p s, PayloadIn d.heap.memStartBrk r.next p s q
  starts : (d.ranges.map Range.lo).Nodup

/-- The driver and the verdict go on together or stop with one complaint. -/
def Agrees (d : Driver) (j : Except Complaint Replay) (res : Option (Driver × Option Complaint)) :
    Prop :=
  ∃ d', Region d'.heap ∧ d'.heap.memStartBrk = d.heap.memStartBrk ∧
    match j with
    | .error c => res = some (d', some c)
    | .ok r => res = some (d', none) ∧ Checks d' r

section Step

variable {numIds : Int} {d : Driver} {r : Replay} {h : Heap} {a : NextFit}
  {ranges : List (Range Nat)} {i o n s : Nat}

theorem fill_start (h : Heap) (p : Nat) (index size : Int) :
    (h.fill p index size).memStartBrk = h.memStartBrk := rfl

theorem Checks.put (C : Checks d r) (R : Represents h a)
    (hstart : h.memStartBrk = d.heap.memStartBrk)
    (hvalid : Replay.Valid ⟨a, Function.update r.held i (some (o, s))⟩)
    (hpos : 0 < s) (hs : s < 2 ^ 31)
    (hfilled : ∀ j q t, j ≠ i → r.held j = some (q, t) →
      ∀ x < t, h.mem (d.heap.memStartBrk + q + x) = UInt8.ofNat j)
    (hlisted : ∀ q ∈ ranges, ∃ p t, p ≠ o ∧ PayloadIn d.heap.memStartBrk a p t q)
    (hstarts : (ranges.map Range.lo).Nodup) :
    Checks ⟨h.fill (d.heap.memStartBrk + o) i s, payload (d.heap.memStartBrk + o) s :: ranges,
        Function.update d.blocks i (d.heap.memStartBrk + o),
        Function.update d.blockSizes i (sizeArg s)⟩
      ⟨a, Function.update r.held i (some (o, s))⟩ := by
  obtain ⟨n, hn, hroom⟩ := hvalid.roomy i o s (update_eq_some_iff.mpr (Or.inl ⟨rfl, rfl⟩))
  have hsize : sizeArg s = s := sizeArg_eq (by omega) (by omega)
  obtain ⟨Rf, hkeep⟩ := fill_represents R hn i (show (0 : Int) ≤ s by omega) (by omega)
    (by omega)
  rw [hstart] at Rf hkeep
  refine ⟨?_, ?_, ?_, ?_, ?_⟩
  · exact C.tracks.put Rf (by rw [fill_start, hstart]) hvalid
  · intro j q t hj
    rcases update_eq_some_iff.mp hj with ⟨rfl, heq⟩ | ⟨hne, hj'⟩
    · obtain ⟨-, rfl⟩ := Prod.mk.inj heq
      exact ⟨by simp [hsize], hpos, hs⟩
    · obtain ⟨hsz, hrest⟩ := C.sizes j q t hj'
      exact ⟨by simp [hne, hsz], hrest⟩
  · intro j q t hj x hx
    dsimp only
    rw [fill_start, hstart]
    rcases update_eq_some_iff.mp hj with ⟨rfl, heq⟩ | ⟨hne, hj'⟩
    · obtain ⟨rfl, rfl⟩ := Prod.mk.inj heq
      rw [Heap.fill, hsize]
      dsimp only [fillBytes]
      rw [if_pos (by omega), lowByte_eq]
    · -- another block, which the fill does not touch
      obtain ⟨m, hm, hle⟩ := hvalid.roomy j q t hj
      have hqo : q ≠ o := by
        rintro rfl
        exact hne (hvalid.apart j i q t s hj (update_eq_some_iff.mpr (Or.inl ⟨rfl, rfl⟩)))
      rw [hkeep q m hm hqo _ (by omega) (by omega)]
      exact hfilled j q t hne hj' x hx
  · intro q hq
    rw [fill_start, hstart]
    rcases List.mem_cons.mp hq with rfl | hq
    · exact ⟨o, s, ⟨n, hn, hroom⟩, hpos, rfl⟩
    · obtain ⟨p, t, -, hp⟩ := hlisted q hq
      exact ⟨p, t, hp⟩
  · rw [List.map_cons, List.nodup_cons]
    refine ⟨?_, hstarts⟩
    rintro hmem
    obtain ⟨q, hq, heq⟩ := List.mem_map.mp hmem
    obtain ⟨p, t, hne, hp⟩ := hlisted q hq
    rw [hp.range, payload, payload] at heq
    exact hne (by dsimp only at heq; omega)

theorem remember_eq (d : Driver) (p : Nat) (size : Int) (hi : (i : Int) < numIds) :
    remember numIds d i p size = some { d with
      blocks := Function.update d.blocks i p
      blockSizes := Function.update d.blockSizes i (sizeArg size) } := by
  rw [remember, slot_eq (by omega) hi]
  rfl

theorem checkAlloc_agrees (C : Checks d r) (hi : (i : Int) < numIds) (hs : s < 2 ^ 31) :
    Agrees d (r.judge ⟨.alloc, i, s⟩) (checkAlloc numIds d ⟨.alloc, i, s⟩) := by
  have hsize : sizeArg s = s := sizeArg_eq (by omega) (by omega)
  have hto : ((s : Int)).toNat = s := rfl
  rcases C.tracks.heap.malloc_cases (show s + 15 < 2 ^ 32 by omega) with
    ⟨hm, hcall⟩ | ⟨a, o, h, hm, hcall, R, hstart, hserved, hkeep⟩
  · refine ⟨{ d with heap := d.heap }, C.tracks.heap.region, rfl, ?_⟩
    simp only [Replay.judge, Replay.serve, hto, hm, checkAlloc, hsize, hcall, reduceCtorEq, if_true,
      if_false]
  · have hvalid := C.tracks.valid.served hserved i
    obtain ⟨k, hk, hiff⟩ := hserved.alloc
    have hnew : a.Alloc o k := (hiff o k).mpr (Or.inr ⟨rfl, rfl⟩)
    -- the listed payloads lie in the blocks that were there before
    have hlisted : ∀ q ∈ d.ranges, ∃ p t, p ≠ o ∧ PayloadIn d.heap.memStartBrk a p t q := by
      intro q hq
      obtain ⟨p, t, ⟨m, hp, hle⟩, htpos, hrange⟩ := C.listed q hq
      refine ⟨p, t, ?_, ⟨m, (hiff p m).mpr (Or.inl hp), hle⟩, htpos, hrange⟩
      rintro rfl
      exact hserved.fresh m hp
    have hpos := hserved.positive
    have hadd := addRange_of_alloc R hnew (show (s : Int).toNat + 8 ≤ k by omega)
      (by omega) (by rw [hstart]; exact hlisted)
    rw [hstart] at hadd
    have hchecks := C.put R hstart hvalid (by omega) hs (fun j q t _ hj x hx => ?_) hlisted
      C.starts
    · refine ⟨_, hchecks.tracks.heap.region, ?_, ?_⟩
      rotate_left
      · simp only [Replay.judge, Replay.serve, hto, hm, checkAlloc, hsize, hcall,
          address_ne_zero _ hnew, if_false, hadd, remember_eq _ _ _ hi, Option.map_some,
          reduceCtorEq, false_and]
        rw [hsize] at hchecks
        exact ⟨trivial, hchecks⟩
      · exact hstart
    · obtain ⟨m, hq, hle⟩ := C.tracks.valid.roomy j q t hj
      rw [hkeep q m hq _ (by omega) (by omega)]
      exact C.filled j q t hj x hx

theorem checkRealloc_agrees (C : Checks d r) {e : Nat × Nat} (hi : (i : Int) < numIds)
    (hs : s < 2 ^ 31) (he : r.held i = some e) :
    Agrees d (r.judge ⟨.realloc, i, s⟩) (checkRealloc numIds d ⟨.realloc, i, s⟩) := by
  obtain ⟨o, old⟩ := e
  have hsize : sizeArg s = s := sizeArg_eq (by omega) (by omega)
  have hto : ((s : Int)).toNat = s := rfl
  have hblock := C.tracks.blocks i o old he
  have hslot := slot_eq (show (0 : Int) ≤ i by omega) hi
  obtain ⟨n, hn, hroom⟩ := C.tracks.valid.roomy i o old he
  obtain ⟨hold, holdpos, holdlt⟩ := C.sizes i o old he
  rcases C.tracks.heap.realloc_cases hn hroom (show s + 15 < 2 ^ 32 by omega) with
    ⟨hm, h, hcall, R, hstart⟩ | ⟨a, p, h, hm, hcall, R, hstart, hmoved, hkeep, hbytes⟩
  · refine ⟨{ d with heap := h }, R.region, hstart, ?_⟩
    obtain ⟨b, hm⟩ : ∃ b, r.next.realloc o s = (b, none) := ⟨_, Prod.ext rfl hm⟩
    simp only [Replay.judge, Replay.serve, hto, Int.toNat_natCast, he, Option.bind_some, hm,
      checkRealloc, hslot, hblock, hsize, hcall, if_true]
  · have hvalid := C.tracks.valid.moved he hmoved
    obtain ⟨k, hk, hiff⟩ := hmoved.alloc
    have hnew : a.Alloc p k := (hiff p k).mpr (Or.inr ⟨rfl, rfl⟩)
    have hpos := hmoved.positive
    -- the old range is gone, the others lie in blocks that stay
    have hlisted : ∀ q ∈ removeRange d.ranges (d.heap.memStartBrk + o),
        ∃ x t, x ≠ p ∧ PayloadIn d.heap.memStartBrk a x t q := by
      intro q hq
      obtain ⟨hq, hne⟩ := (mem_removeRange C.starts).mp hq
      obtain ⟨x, t, ⟨m, hx, hle⟩, htpos, hrange⟩ := C.listed q hq
      have hxo : x ≠ o := by
        rintro rfl
        exact hne (by rw [hrange]; rfl)
      refine ⟨x, t, ?_, ⟨m, (hiff x m).mpr (Or.inl ⟨hx, hxo⟩), hle⟩, htpos, hrange⟩
      rintro rfl
      exact hmoved.fresh m hx
    have hadd := addRange_of_alloc R hnew (show (s : Int).toNat + 8 ≤ k by omega) (by omega)
      (by rw [hstart]; exact hlisted)
    rw [hstart] at hadd
    -- the smaller of the two sizes, all of it filled with the id
    have hfill : ∀ j < (if (s : Int) < old then (s : Int) else old).toNat,
        h.mem (d.heap.memStartBrk + p + j) = UInt8.ofNat i := by
      intro j hj
      have hjs : j < s ∧ j < old := by split at hj <;> omega
      rw [hbytes j hjs.1 hjs.2]
      exact C.filled i o old he j hjs.2
    have hpres := preserved_iff (by split <;> omega) hfill
    have holdsize : toInt (d.blockSizes i) = old := by rw [hold, toInt_of_lt holdlt]
    by_cases hlow : 128 ≤ (i : Int) % 256
    · refine ⟨{ d with
        heap := h
        ranges := payload (d.heap.memStartBrk + p) s ::
          removeRange d.ranges (d.heap.memStartBrk + o) }, R.region, hstart, ?_⟩
      simp only [Replay.judge, Replay.serve, hto, Int.toNat_natCast, he, Option.bind_some, hm,
        checkRealloc, hslot, hblock, hsize, hcall, address_ne_zero _ hnew, if_false, hadd,
        holdsize, hpres, hlow, not_true_eq_false, not_false_eq_true, and_self, if_true]
    · have hchecks := C.put R hstart hvalid (by omega) hs (fun j q t hne hj x hx => ?_) hlisted
        (C.starts.sublist ((removeRange_sublist _ _).map _))
      · refine ⟨_, hchecks.tracks.heap.region, ?_, ?_⟩
        rotate_left
        · simp only [Replay.judge, Replay.serve, hto, Int.toNat_natCast, he, Option.bind_some, hm,
            checkRealloc, hslot, hblock, hsize, hcall, address_ne_zero _ hnew, if_false, hadd,
            holdsize, hpres, hlow, not_false_eq_true, not_true_eq_false, and_false,
            remember_eq _ _ _ hi, Option.map_some]
          rw [hsize] at hchecks
          exact ⟨trivial, hchecks⟩
        · exact hstart
      · obtain ⟨m, hq, hle⟩ := C.tracks.valid.roomy j q t hj
        have hqo : q ≠ o := by
          rintro rfl
          exact hne (C.tracks.valid.apart j i q t old hj he)
        rw [hkeep q m hq hqo _ (by omega) (by omega)]
        exact C.filled j q t hj x hx

theorem checkFree_agrees (C : Checks d r) {e : Nat × Nat} {size : Int} (hi : (i : Int) < numIds)
    (he : r.held i = some e) :
    Agrees d (r.judge ⟨.free, i, size⟩) (checkFree numIds d ⟨.free, i, size⟩) := by
  obtain ⟨o, s⟩ := e
  obtain ⟨T, hstart, hkeep⟩ := C.tracks.free he
  obtain ⟨n, hn, hroom⟩ := C.tracks.valid.roomy i o s he
  obtain ⟨pre, b, post, hblocks, ho, -, -⟩ := hn.cut
  have hblock := C.tracks.blocks i o s he
  refine ⟨{ d with
    heap := mmFree d.heap (d.heap.memStartBrk + o)
    ranges := removeRange d.ranges (d.heap.memStartBrk + o) }, T.heap.region, hstart, ?_⟩
  simp only [Replay.judge, Replay.serve, Int.toNat_natCast, he, Option.map_some, checkFree,
    slot_eq (show (0 : Int) ≤ i by omega) hi, hblock, reduceCtorEq, false_and, if_false, true_and]
  refine ⟨T, ?_, ?_, ?_, ?_⟩
  · exact fun j q t hj => C.sizes j q t (update_none_eq_some_iff.mp hj).2
  · intro j q t hj x hx
    obtain ⟨hne, hj'⟩ := update_none_eq_some_iff.mp hj
    obtain ⟨m, hq, hle⟩ := C.tracks.valid.roomy j q t hj'
    have hqo : q ≠ o := by
      rintro rfl
      exact hne (C.tracks.valid.apart j i q t s hj' he)
    dsimp only
    rw [hstart, hkeep q m hq hqo _ (by omega) (by omega)]
    exact C.filled j q t hj' x hx
  · intro q hq
    obtain ⟨hq, hne⟩ := (mem_removeRange C.starts).mp hq
    obtain ⟨p, t, ⟨m, hp, hle⟩, htpos, hrange⟩ := C.listed q hq
    have hpo : p ≠ o := by
      rintro rfl
      exact hne (by rw [hrange]; rfl)
    dsimp only
    rw [hstart]
    exact ⟨p, t, ⟨m, (NextFit.alloc_free hblocks ho p m).mpr ⟨hp, hpo⟩, hle⟩, htpos, hrange⟩
  · exact C.starts.sublist ((removeRange_sublist _ _).map _)

theorem checkOp_agrees (C : Checks d r) {ids : List Nat} {op : TraceOp} (hids : r.Holds ids)
    (hop : op.WellFormed numIds ids) : Agrees d (r.judge op) (checkOp numIds d op) := by
  obtain ⟨⟨h0, hi⟩, hlive, hsize⟩ := hop
  obtain ⟨type, index, size⟩ := op
  obtain ⟨i, rfl⟩ := Int.eq_ofNat_of_zero_le h0
  cases type with
  | alloc =>
      obtain ⟨hs0, hs⟩ := hsize (by simp)
      obtain ⟨s, rfl⟩ := Int.eq_ofNat_of_zero_le hs0
      exact checkAlloc_agrees C hi (by dsimp only at hs; omega)
  | realloc =>
      obtain ⟨hs0, hs⟩ := hsize (by simp)
      obtain ⟨s, rfl⟩ := Int.eq_ofNat_of_zero_le hs0
      obtain ⟨e, he⟩ := hids i (hlive (by simp))
      exact checkRealloc_agrees C hi (by dsimp only at hs; omega) he
  | free =>
      obtain ⟨e, he⟩ := hids i (hlive (by simp))
      exact checkFree_agrees C hi he

end Step

/-! ## Whole traces -/

theorem checkOps_eq {numIds : Int} (tracenum i : Nat) {d : Driver} {r : Replay} {ids : List Nat}
    {ops : List TraceOp} (C : Checks d r) (hids : r.Holds ids)
    (hops : OpsWellFormed numIds ids ops) :
    ∃ d', checkOps numIds tracenum i d ops = some (d', r.verdict tracenum i ops) ∧
      Region d'.heap ∧ d'.heap.memStartBrk = d.heap.memStartBrk := by
  induction ops generalizing i d r ids with
  | nil => exact ⟨d, rfl, C.tracks.heap.region, rfl⟩
  | cons op ops ih =>
      obtain ⟨hop, hrest⟩ := hops
      obtain ⟨d', hregion, hstart, hres⟩ := checkOp_agrees C hids hop
      rw [checkOps, Replay.verdict]
      cases hj : r.judge op with
      | error c =>
          rw [hj] at hres
          dsimp only at hres
          rw [hres]
          exact ⟨d', rfl, hregion, hstart⟩
      | ok r' =>
          rw [hj] at hres
          obtain ⟨hres, C'⟩ := hres
          rw [hres]
          obtain ⟨d'', heq, hregion', hstart'⟩ := ih (i + 1) C'
            (hids.serve (Replay.judge_ok_iff.mp hj).1) hrest
          exact ⟨d'', heq, hregion', hstart'.trans hstart⟩

theorem checks_initial {d : Driver} (H : Region d.heap) :
    Checks { d with heap := (mmInit (memResetBrk d.heap)).1, ranges := [] } Replay.initial where
  tracks := (tracks_initial H d.blocks).2.1
  sizes i o s hi := by simp [Replay.initial] at hi
  filled i o s hi := by simp [Replay.initial] at hi
  listed q hq := by simp at hq
  starts := List.nodup_nil

/-- From any state of the driver, whatever an earlier trace left in the heap, the
range list and the arrays, `eval_mm_valid` comes back with the verdict of next fit. -/
theorem evalMmValid_eq_verdict {t : Trace} {d : Driver} (tracenum : Nat) (H : Region d.heap)
    (ht : t.WellFormed) :
    ∃ d', evalMmValid t tracenum d = some (d', Replay.initial.verdict tracenum 0 t.ops) ∧
      Region d'.heap ∧ d'.heap.memStartBrk = d.heap.memStartBrk := by
  obtain ⟨hzero, -, hstart⟩ := tracks_initial H d.blocks
  obtain ⟨d', heq, hregion, hstart'⟩ := checkOps_eq tracenum 0 (checks_initial H)
    (show Replay.initial.Holds [] from fun i hi => by simp at hi) ht
  refine ⟨d', ?_, hregion, hstart'.trans hstart⟩
  rw [evalMmValid]
  dsimp only
  rw [if_neg (by omega)]
  exact heq

/-- A driver over zero bytes, with an old range list and stale arrays. -/
def staleDriver : Driver := ⟨memInit UInt8.ofNat 64 1 5, [⟨1, 9⟩], fun i => 7 * i, fun _ => 3⟩

theorem staleDriver_region : Region staleDriver.heap := ⟨rfl, rfl, by decide⟩

/-- A block of 4 bytes under the id 128, grown to 8 bytes. -/
def growing : Trace := ⟨129, [⟨.alloc, 128, 4⟩, ⟨.realloc, 128, 8⟩]⟩

theorem growing_eq_verdict :
    ∃ d', evalMmValid growing 0 staleDriver =
        some (d', Replay.initial.verdict 0 0 growing.ops) ∧
      Region d'.heap ∧ d'.heap.memStartBrk = staleDriver.heap.memStartBrk :=
  evalMmValid_eq_verdict 0 staleDriver_region (by decide)

/-- The allocator kept the bytes of the block. -/
example : Replay.initial.verdict 0 0 growing.ops = some ⟨0, 1, .notPreserved⟩ := by
  decide +kernel

end CompOrg.Malloc
