import CompOrg.Malloc.Evaluation
import CompOrg.Malloc.Realloc
import Mathlib.Logic.Function.Basic

/-! # Traces on next fit

What a trace asks for, without addresses: next fit and, for each id, the offset and
the size of the block that was last given out under it. A block whose id is allocated
again stays allocated and is forgotten. The loops of the driver are compared with
this replay one request at a time.
-/

namespace CompOrg.Malloc

open Memory

namespace NextFit

variable {a b : NextFit} {o p n size : Nat}

/-- `b` comes from `a` by moving the block at `o` to a new one at `p`. -/
structure Moved (a b : NextFit) (o size p : Nat) : Prop where
  valid : b.Valid
  positive : size ≠ 0
  fresh : ∀ n, ¬ a.Alloc p n
  alloc : ∃ k, size + 8 ≤ k ∧ ∀ q n, b.Alloc q n ↔ (a.Alloc q n ∧ q ≠ o) ∨ (q = p ∧ n = k)

theorem realloc_some (hv : a.Valid) (halloc : a.Alloc o n)
    (h : a.realloc o size = (b, some p)) : Moved a b o size p := by
  unfold realloc at h
  split at h
  next => simp at h
  next hz =>
    rcases hm : a.malloc size with ⟨c, _ | q⟩
    · simp [hm] at h
    · simp only [hm, Prod.mk.injEq, Option.some.injEq] at h
      obtain ⟨rfl, rfl⟩ := h
      have hs := malloc_some hv hm
      obtain ⟨k, hk, hiff⟩ := hs.alloc
      have hold : c.Alloc o n := (hiff o n).mpr (Or.inl halloc)
      have hne : q ≠ o := fun heq => hs.fresh n (heq ▸ halloc)
      obtain ⟨pre, d, post, hblocks, ho, -, -⟩ := hold.cut
      refine ⟨free_valid hs.valid hblocks ho, hz, hs.fresh, k, hk, fun x m => ?_⟩
      rw [alloc_free hblocks ho, hiff, or_and_right]
      refine or_congr_right ⟨And.left, fun h => ⟨h, ?_⟩⟩
      exact h.1 ▸ hne

end NextFit

/-! ## Tables by id -/

section Tables

variable {β : Type*} {f : Nat → Option β} {i j : Nat} {x y : β}

theorem update_eq_some_iff :
    Function.update f i (some y) j = some x ↔ j = i ∧ x = y ∨ j ≠ i ∧ f j = some x := by
  by_cases h : j = i
  · subst h
    simp [eq_comm]
  · simp [h]

theorem update_none_eq_some_iff :
    Function.update f i none j = some x ↔ j ≠ i ∧ f j = some x := by
  by_cases h : j = i
  · subst h
    simp
  · simp [h]

end Tables

/-! ## The replay -/

structure Replay where
  next : NextFit
  /-- Offset and size of the block of an id. -/
  held : Nat → Option (Nat × Nat)

namespace Replay

/-- One request; no result when next fit refuses it. -/
def serve (r : Replay) (op : TraceOp) : Option Replay :=
  let i := op.index.toNat
  let size := op.size.toNat
  match op.type with
  | .alloc =>
      match r.next.malloc size with
      | (_, none) => none
      | (a, some o) => some ⟨a, Function.update r.held i (some (o, size))⟩
  | .realloc =>
      (r.held i).bind fun e =>
        match r.next.realloc e.1 size with
        | (_, none) => none
        | (a, some p) => some ⟨a, Function.update r.held i (some (p, size))⟩
  | .free => (r.held i).map fun e => ⟨r.next.free e.1, Function.update r.held i none⟩

def initial : Replay := ⟨NextFit.initial, fun _ => none⟩

/-- The blocks of the ids are allocated, big enough, and different. -/
structure Valid (r : Replay) : Prop where
  next : r.next.Valid
  roomy : ∀ i o s, r.held i = some (o, s) → ∃ n, r.next.Alloc o n ∧ s + 8 ≤ n
  apart : ∀ i j o s s', r.held i = some (o, s) → r.held j = some (o, s') → i = j

theorem initial_valid : initial.Valid where
  next := NextFit.initial_valid
  roomy i o s h := by simp [initial] at h
  apart i j o s s' h := by simp [initial] at h

variable {r : Replay} {a : NextFit} {i o p s size : Nat}

/-- A new block under the id `i`, whatever the id named before. -/
theorem Valid.put (h : r.Valid) (ha : a.Valid) (hfresh : ∀ n, ¬ r.next.Alloc p n)
    (hkeep : ∀ j q t n, j ≠ i → r.held j = some (q, t) → r.next.Alloc q n → a.Alloc q n)
    (hnew : ∃ k, a.Alloc p k ∧ size + 8 ≤ k) :
    Valid ⟨a, Function.update r.held i (some (p, size))⟩ := by
  have hne : ∀ j t, r.held j ≠ some (p, t) := by
    intro j t hj
    obtain ⟨n, hn, -⟩ := h.roomy j p t hj
    exact hfresh n hn
  refine ⟨ha, fun j q t hj => ?_, fun j k q t t' hj hk => ?_⟩
  · rcases update_eq_some_iff.mp hj with ⟨-, heq⟩ | ⟨hji, hj⟩
    · obtain ⟨rfl, rfl⟩ := Prod.mk.inj heq
      exact hnew
    · obtain ⟨n, hn, hle⟩ := h.roomy j q t hj
      exact ⟨n, hkeep j q t n hji hj hn, hle⟩
  · rcases update_eq_some_iff.mp hj with ⟨rfl, heq⟩ | ⟨-, hj'⟩ <;>
      rcases update_eq_some_iff.mp hk with ⟨rfl, heq'⟩ | ⟨-, hk'⟩
    · rfl
    · obtain ⟨rfl, rfl⟩ := Prod.mk.inj heq
      exact (hne k t' hk').elim
    · obtain ⟨rfl, rfl⟩ := Prod.mk.inj heq'
      exact (hne j t hj').elim
    · exact h.apart j k q t t' hj' hk'

theorem Valid.served (h : r.Valid) (hs : NextFit.Served r.next a size o) (i : Nat) :
    Valid ⟨a, Function.update r.held i (some (o, size))⟩ := by
  obtain ⟨k, hk, hiff⟩ := hs.alloc
  refine h.put hs.valid hs.fresh (fun _ q _ n _ _ hn => ?_) ⟨k, ?_, hk⟩
  · exact (hiff q n).mpr (Or.inl hn)
  · exact (hiff o k).mpr (Or.inr ⟨rfl, rfl⟩)

theorem Valid.moved (h : r.Valid) (hi : r.held i = some (o, s))
    (hm : NextFit.Moved r.next a o size p) :
    Valid ⟨a, Function.update r.held i (some (p, size))⟩ := by
  obtain ⟨k, hk, hiff⟩ := hm.alloc
  refine h.put hm.valid hm.fresh (fun j q t n hne hj hn => ?_) ⟨k, ?_, hk⟩
  · refine (hiff q n).mpr (Or.inl ⟨hn, ?_⟩)
    rintro rfl
    exact hne (h.apart j i q t s hj hi)
  · exact (hiff p k).mpr (Or.inr ⟨rfl, rfl⟩)

theorem Valid.freed (h : r.Valid) (hi : r.held i = some (o, s)) :
    Valid ⟨r.next.free o, Function.update r.held i none⟩ := by
  obtain ⟨n, hn, -⟩ := h.roomy i o s hi
  obtain ⟨pre, d, post, hblocks, ho, -, -⟩ := hn.cut
  have hfree := NextFit.alloc_free hblocks ho
  refine ⟨NextFit.free_valid h.next hblocks ho, fun j q t hj => ?_, fun j k q t t' hj hk => ?_⟩
  · obtain ⟨hne, hj'⟩ := update_none_eq_some_iff.mp hj
    obtain ⟨m, hm, hle⟩ := h.roomy j q t hj'
    refine ⟨m, (hfree q m).mpr ⟨hm, ?_⟩, hle⟩
    rintro rfl
    exact hne (h.apart j i q t s hj' hi)
  · exact h.apart j k q t t' (update_none_eq_some_iff.mp hj).2 (update_none_eq_some_iff.mp hk).2

end Replay

/-! ## Requests on a represented heap -/

section Requests

variable {h : Heap} {a : NextFit} {o n old size : Nat}

/-- `mm_malloc` is refused with the heap as it was, or served. -/
theorem Represents.malloc_cases (R : Represents h a) (hsize : size + 15 < 2 ^ 32) :
    (a.malloc size = (a, none) ∧ mmMalloc h size = some (h, 0)) ∨
      ∃ b o h', a.malloc size = (b, some o) ∧ mmMalloc h size = some (h', h.memStartBrk + o) ∧
        Represents h' b ∧ h'.memStartBrk = h.memStartBrk ∧ NextFit.Served a b size o ∧
        KeepsAllocated h.memStartBrk a.blocks h.mem h'.mem := by
  rcases hm : a.malloc size with ⟨b, _ | o⟩
  · obtain rfl := NextFit.malloc_none hm
    exact Or.inl ⟨rfl, mmMalloc_of_none R hsize (by rw [hm])⟩
  · obtain ⟨h', hcall, R', hstart, hkeep⟩ := mmMalloc_of_some R hsize (by rw [hm])
    rw [hm] at R'
    exact Or.inr ⟨b, o, h', rfl, hcall, R', hstart, NextFit.malloc_some R.valid hm, hkeep⟩

/-- `mm_realloc` on an allocated block gives `NULL`, or moves the block with its
bytes. -/
theorem Represents.realloc_cases (R : Represents h a) (halloc : a.Alloc o n)
    (hroom : old + 8 ≤ n) (hsize : size + 15 < 2 ^ 32) :
    ((a.realloc o size).2 = none ∧ ∃ h', mmRealloc h (h.memStartBrk + o) size = some (h', 0) ∧
        Represents h' (a.realloc o size).1 ∧ h'.memStartBrk = h.memStartBrk) ∨
      ∃ b p h', a.realloc o size = (b, some p) ∧
        mmRealloc h (h.memStartBrk + o) size = some (h', h.memStartBrk + p) ∧
        Represents h' b ∧ h'.memStartBrk = h.memStartBrk ∧ NextFit.Moved a b o size p ∧
        KeepsOthers h.memStartBrk a o h.mem h'.mem ∧
        ∀ i, i < size → i < old →
          h'.mem (h.memStartBrk + p + i) = h.mem (h.memStartBrk + o + i) := by
  obtain ⟨h', hcall, R', hstart, hkeep⟩ := mmRealloc_refines R halloc hsize
  rcases hr : a.realloc o size with ⟨b, _ | p⟩
  · rw [hr] at hcall R'
    exact Or.inl ⟨rfl, h', hcall, R', hstart⟩
  · rw [hr] at hcall R'
    have hmoved := NextFit.realloc_some R.valid halloc hr
    refine Or.inr ⟨b, p, h', rfl, hcall, R', hstart, hmoved, hkeep, fun i hi hio => ?_⟩
    -- the result of the call, opened at the heap between `mm_malloc` and the copy
    rw [NextFit.realloc, if_neg hmoved.positive] at hr
    rcases hm : a.malloc size with ⟨c, _ | q⟩
    · simp [hm] at hr
    · simp only [hm, Prod.mk.injEq, Option.some.injEq] at hr
      obtain ⟨-, rfl⟩ := hr
      obtain ⟨g, k, S⟩ := reallocating_of_some R hsize hm
      rw [S.result halloc hmoved.positive, Option.some.injEq, Prod.mk.injEq] at hcall
      rw [← hcall.1]
      exact S.byte_eq halloc hi (by omega)

end Requests

/-! ## Traces that the loops understand -/

/-- The request names an id of the trace, a live one unless it allocates. -/
def TraceOp.WellFormed (numIds : Int) (ids : List Nat) (op : TraceOp) : Prop :=
  (0 ≤ op.index ∧ op.index < numIds) ∧ (op.type ≠ .alloc → op.index.toNat ∈ ids) ∧
    (op.type ≠ .free → 0 ≤ op.size ∧ op.size < 2 ^ 31)

instance (numIds : Int) (ids : List Nat) (op : TraceOp) : Decidable (op.WellFormed numIds ids) :=
  inferInstanceAs (Decidable (_ ∧ _ ∧ _))

/-- The live ids after a request. -/
def TraceOp.live (ids : List Nat) (op : TraceOp) : List Nat :=
  match op.type with
  | .alloc => op.index.toNat :: ids
  | .realloc => ids
  | .free => ids.filter fun i => i ≠ op.index.toNat

def OpsWellFormed (numIds : Int) : List Nat → List TraceOp → Prop
  | _, [] => True
  | ids, op :: ops => op.WellFormed numIds ids ∧ OpsWellFormed numIds (op.live ids) ops

instance decidableOpsWellFormed (numIds : Int) :
    ∀ ids ops, Decidable (OpsWellFormed numIds ids ops)
  | _, [] => isTrue trivial
  | ids, op :: ops =>
      have := decidableOpsWellFormed numIds (op.live ids) ops
      inferInstanceAs (Decidable (_ ∧ _))

def Trace.WellFormed (t : Trace) : Prop := OpsWellFormed t.numIds [] t.ops

instance (t : Trace) : Decidable t.WellFormed :=
  inferInstanceAs (Decidable (OpsWellFormed t.numIds [] t.ops))

theorem sizeArg_eq {n : Int} (h0 : 0 ≤ n) (h : n < 2 ^ 31) : sizeArg n = n.toNat := by
  unfold sizeArg
  rw [Int.emod_eq_of_lt h0 (by omega)]

theorem slot_eq {numIds index : Int} (h0 : 0 ≤ index) (h : index < numIds) :
    slot numIds index = some index.toNat := if_pos ⟨h0, h⟩

/-- Every live id is held. -/
def Replay.Holds (r : Replay) (ids : List Nat) : Prop := ∀ i ∈ ids, ∃ e, r.held i = some e

theorem Replay.Holds.serve {r r' : Replay} {ids : List Nat} {op : TraceOp} (h : r.Holds ids)
    (hs : r.serve op = some r') : r'.Holds (op.live ids) := by
  have hput : ∀ (a : NextFit) e, Replay.Holds ⟨a, Function.update r.held op.index.toNat (some e)⟩
      (op.index.toNat :: ids) := by
    intro a e i hi
    by_cases heq : i = op.index.toNat
    · exact ⟨e, by simp [heq]⟩
    · obtain ⟨x, hx⟩ := h i ((List.mem_cons.mp hi).resolve_left heq)
      exact ⟨x, update_eq_some_iff.mpr (Or.inr ⟨heq, hx⟩)⟩
  unfold Replay.serve at hs
  unfold TraceOp.live
  cases ht : op.type with
  | alloc =>
      simp only [ht] at hs ⊢
      split at hs
      next => simp at hs
      next a o hm =>
        cases hs
        exact hput a _
  | realloc =>
      simp only [ht] at hs ⊢
      obtain ⟨e, -, hs⟩ := Option.bind_eq_some_iff.mp hs
      split at hs
      next => simp at hs
      next a p hm =>
        cases hs
        exact fun i hi => hput a _ i (List.mem_cons_of_mem _ hi)
  | free =>
      simp only [ht] at hs ⊢
      obtain ⟨e, -, rfl⟩ := Option.map_eq_some_iff.mp hs
      intro i hi
      obtain ⟨hi, hne⟩ := List.mem_filter.mp hi
      obtain ⟨x, hx⟩ := h i hi
      exact ⟨x, update_none_eq_some_iff.mpr ⟨by simpa using hne, hx⟩⟩

/-! ## What the loops keep -/

/-- The region that `mem_init` sets up; no function moves it. -/
structure Region (h : Heap) : Prop where
  aligned : h.memStartBrk % 8 = 0
  maxAddr : h.memMaxAddr = h.memStartBrk + MAX_HEAP
  addressable : h.memMaxAddr < 2 ^ 32

theorem Represents.region {h : Heap} {a : NextFit} (R : Represents h a) : Region h :=
  ⟨R.layout.aligned, R.layout.maxAddr, R.layout.addressable⟩

/-- The heap represents the replay and `blocks` holds the address of each id. -/
structure Tracks (h : Heap) (blocks : Nat → Nat) (r : Replay) : Prop where
  heap : Represents h r.next
  valid : r.Valid
  blocks : ∀ i o s, r.held i = some (o, s) → blocks i = h.memStartBrk + o

section Tracks

variable {h h' : Heap} {blocks : Nat → Nat} {r : Replay} {a : NextFit} {i o p s size : Nat}

theorem Tracks.put (T : Tracks h blocks r) (R : Represents h' a)
    (hstart : h'.memStartBrk = h.memStartBrk)
    (hvalid : Replay.Valid ⟨a, Function.update r.held i (some (p, size))⟩) :
    Tracks h' (Function.update blocks i (h.memStartBrk + p))
      ⟨a, Function.update r.held i (some (p, size))⟩ := by
  refine ⟨R, hvalid, fun j q t hj => ?_⟩
  rcases update_eq_some_iff.mp hj with ⟨rfl, heq⟩ | ⟨hne, hj'⟩
  · obtain ⟨rfl, -⟩ := Prod.mk.inj heq
    rw [Function.update_self, hstart]
  · rw [Function.update_of_ne hne, hstart]
    exact T.blocks j q t hj'

theorem Tracks.free (T : Tracks h blocks r) (hi : r.held i = some (o, s)) :
    Tracks (mmFree h (h.memStartBrk + o)) blocks
        ⟨r.next.free o, Function.update r.held i none⟩ ∧
      (mmFree h (h.memStartBrk + o)).memStartBrk = h.memStartBrk ∧
      KeepsOthers h.memStartBrk r.next o h.mem (mmFree h (h.memStartBrk + o)).mem := by
  obtain ⟨n, hn, -⟩ := T.valid.roomy i o s hi
  obtain ⟨R, hstart, hkeep⟩ := mmFree_refines T.heap hn
  refine ⟨⟨R, T.valid.freed hi, fun j q t hj => ?_⟩, hstart, hkeep⟩
  rw [hstart]
  exact T.blocks j q t (update_none_eq_some_iff.mp hj).2

theorem tracks_initial {h : Heap} (H : Region h) (blocks : Nat → Nat) :
    (mmInit (memResetBrk h)).2 = 0 ∧
      Tracks (mmInit (memResetBrk h)).1 blocks Replay.initial ∧
      (mmInit (memResetBrk h)).1.memStartBrk = h.memStartBrk := by
  obtain ⟨hzero, R, hstart⟩ := mmInit_represents H.aligned H.maxAddr H.addressable
  exact ⟨hzero, ⟨R, Replay.initial_valid, fun i o s hi => by simp [Replay.initial] at hi⟩, hstart⟩

/-- The address of a block that a replay gives out is no null pointer. -/
theorem Replay.Valid.address_ne_zero {i o s : Nat} (start : Nat) (hv : r.Valid)
    (hi : r.held i = some (o, s)) : start + o ≠ 0 := by
  obtain ⟨n, hn, -⟩ := hv.roomy i o s hi
  exact Malloc.address_ne_zero start hn

/-! ## Served requests -/

variable {r' : Replay}

theorem Tracks.alloc_served (T : Tracks h blocks r) (hs : size < 2 ^ 31)
    (hserve : r.serve ⟨.alloc, i, size⟩ = some r') :
    ∃ h' p a o, mmMalloc h size = some (h', p) ∧ p ≠ 0 ∧
      r' = ⟨a, Function.update r.held i (some (o, size))⟩ ∧
      Tracks h' (Function.update blocks i p) r' ∧ h'.memStartBrk = h.memStartBrk := by
  simp only [Replay.serve, Int.toNat_natCast] at hserve
  rcases T.heap.malloc_cases (show size + 15 < 2 ^ 32 by omega) with
    ⟨hm, -⟩ | ⟨a, o, h', hm, hcall, R, hstart, hserved, -⟩
  · simp [hm] at hserve
  · rw [hm] at hserve
    cases hserve
    have hvalid := T.valid.served hserved i
    refine ⟨h', _, a, o, hcall, ?_, rfl, T.put R hstart hvalid, hstart⟩
    exact hvalid.address_ne_zero _ (update_eq_some_iff.mpr (Or.inl ⟨rfl, rfl⟩))

theorem Tracks.realloc_served (T : Tracks h blocks r) (hs : size < 2 ^ 31)
    (hserve : r.serve ⟨.realloc, i, size⟩ = some r') :
    ∃ h' p a o, mmRealloc h (blocks i) size = some (h', p) ∧ p ≠ 0 ∧
      r' = ⟨a, Function.update r.held i (some (o, size))⟩ ∧
      Tracks h' (Function.update blocks i p) r' ∧ h'.memStartBrk = h.memStartBrk := by
  simp only [Replay.serve, Int.toNat_natCast] at hserve
  obtain ⟨⟨o, s⟩, hi, hserve⟩ := Option.bind_eq_some_iff.mp hserve
  obtain ⟨n, hn, hroom⟩ := T.valid.roomy i o s hi
  rw [T.blocks i o s hi]
  rcases T.heap.realloc_cases hn hroom (show size + 15 < 2 ^ 32 by omega) with
    ⟨hm, -⟩ | ⟨a, p, h', hm, hcall, R, hstart, hmoved, -, -⟩
  · obtain ⟨b, hm⟩ : ∃ b, r.next.realloc o size = (b, none) := ⟨_, Prod.ext rfl hm⟩
    simp [hm] at hserve
  · rw [hm] at hserve
    cases hserve
    have hvalid := T.valid.moved hi hmoved
    refine ⟨h', _, a, p, hcall, ?_, rfl, T.put R hstart hvalid, hstart⟩
    exact hvalid.address_ne_zero _ (update_eq_some_iff.mpr (Or.inl ⟨rfl, rfl⟩))

theorem Tracks.free_served {n : Int} (T : Tracks h blocks r)
    (hserve : r.serve ⟨.free, i, n⟩ = some r') :
    (∃ a, r' = ⟨a, Function.update r.held i none⟩) ∧ Tracks (mmFree h (blocks i)) blocks r' ∧
      (mmFree h (blocks i)).memStartBrk = h.memStartBrk := by
  simp only [Replay.serve, Int.toNat_natCast] at hserve
  obtain ⟨⟨o, s⟩, hi, rfl⟩ := Option.map_eq_some_iff.mp hserve
  rw [T.blocks i o s hi]
  obtain ⟨T', hstart, -⟩ := T.free hi
  exact ⟨⟨_, rfl⟩, T', hstart⟩

end Tracks

end CompOrg.Malloc
