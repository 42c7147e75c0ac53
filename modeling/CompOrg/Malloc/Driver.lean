import CompOrg.Lib.Ranges
import CompOrg.Lib.TransitionSystem
import CompOrg.Malloc.Memlib

/-! # The range list of the driver

`mdriver.c` keeps the extent of every payload it was given and tests each new one
against them. The test looks at the two ends of the new payload only. A run here is
any sequence of payloads offered to the list and taken from it, with any heap at each
of them: nothing is assumed of the allocator that is tested.
-/

namespace CompOrg.Malloc

def ALIGNMENT : Nat := 8

/-- What the driver prints and counts as an error. -/
inductive Complaint
  | initFailed
  | mallocFailed
  | reallocFailed
  | notAligned (lo : Nat)
  | outsideHeap (lo hi heapLo heapHi : Nat)
  | overlaps (lo hi otherLo otherHi : Nat)
  | notPreserved
  deriving DecidableEq

/-- The text of the message; the addresses are printed for `%p`, in their order. -/
def Complaint.text : Complaint → String
  | .initFailed => "mm_init failed."
  | .mallocFailed => "mm_malloc failed."
  | .reallocFailed => "mm_realloc failed."
  | .notAligned _ => "Payload address (%p) not aligned to 8 bytes"
  | .outsideHeap _ _ _ _ => "Payload (%p:%p) lies outside heap (%p:%p)"
  | .overlaps _ _ _ _ => "Payload (%p:%p) overlaps another payload (%p:%p)\n"
  | .notPreserved => "mm_realloc did not preserve the data from old block"

/-- `lo + size - 1`, for a size that has passed the assertion. -/
def payload (lo : Nat) (size : Int) : Range Nat := ⟨lo, lo + size.toNat - 1⟩

/-- `IS_ALIGNED(p)` -/
def isAligned (p : Nat) : Prop := sizeT p % ALIGNMENT = 0

def insideHeap (h : Heap) (r : Range Nat) : Prop :=
  ¬ (r.lo < memHeapLo h ∨ r.lo > memHeapHi h ∨ r.hi < memHeapLo h ∨ r.hi > memHeapHi h)

instance (p : Nat) : Decidable (isAligned p) := inferInstanceAs (Decidable (_ = _))

instance (h : Heap) (r : Range Nat) : Decidable (insideHeap h r) :=
  inferInstanceAs (Decidable (¬ _))

/-- The newest range is at the head of the list. The result `none` is the failed
assertion `size > 0`. -/
def addRange (h : Heap) (ranges : List (Range Nat)) (lo : Nat) (size : Int) :
    Option (Except Complaint (List (Range Nat))) :=
  if size ≤ 0 then none
  else
    let r := payload lo size
    if ¬ isAligned lo then some (.error (.notAligned lo))
    else if ¬ insideHeap h r then
      some (.error (.outsideHeap r.lo r.hi (memHeapLo h) (memHeapHi h)))
    else
      match ranges.find? fun p => decide (r.EndsIn p) with
      | some p => some (.error (.overlaps r.lo r.hi p.lo p.hi))
      | none => some (.ok (r :: ranges))

def removeRange : List (Range Nat) → Nat → List (Range Nat)
  | [], _ => []
  | p :: ranges, lo => if p.lo = lo then ranges else p :: removeRange ranges lo

theorem payload_le {lo : Nat} {size : Int} (h : 0 < size) :
    (payload lo size).lo ≤ (payload lo size).hi := by
  unfold payload
  dsimp only
  omega

/-! ## What is accepted -/

section Accept

variable {h : Heap} {ranges ranges' : List (Range Nat)} {lo : Nat} {size : Int}

theorem addRange_ok_iff :
    addRange h ranges lo size = some (.ok ranges') ↔
      0 < size ∧ isAligned lo ∧ insideHeap h (payload lo size) ∧
        (∀ p ∈ ranges, ¬ (payload lo size).EndsIn p) ∧ ranges' = payload lo size :: ranges := by
  unfold addRange
  by_cases hs : size ≤ 0
  · simp [if_pos hs, Int.not_lt.mpr hs]
  rw [if_neg hs]
  dsimp only
  by_cases ha : isAligned lo
  · by_cases hi : insideHeap h (payload lo size)
    · rw [if_neg (not_not_intro ha), if_neg (not_not_intro hi)]
      rcases hf : ranges.find? fun p => decide ((payload lo size).EndsIn p) with _ | p
      · have hnone := List.find?_eq_none.mp hf
        simp only [decide_eq_true_eq] at hnone
        simp only [Option.some.injEq, Except.ok.injEq]
        constructor
        · rintro rfl
          exact ⟨Int.not_le.mp hs, ha, hi, hnone, rfl⟩
        · rintro ⟨-, -, -, -, heq⟩
          exact heq.symm
      · have hp := List.find?_some hf
        have hmem := List.mem_of_find?_eq_some hf
        simp only [decide_eq_true_eq] at hp
        simp only [Option.some.injEq, reduceCtorEq, false_iff]
        rintro ⟨-, -, -, hall, -⟩
        exact hall p hmem hp
    · simp [ha, hi]
  · simp [ha]

/-- An aligned payload inside the heap is accepted exactly when each range in the
list is apart from it or strictly surrounded by it. -/
theorem addRange_accepts_iff (hpos : 0 < size) (hranges : ∀ p ∈ ranges, p.lo ≤ p.hi) :
    (∃ ranges', addRange h ranges lo size = some (.ok ranges')) ↔
      isAligned lo ∧ insideHeap h (payload lo size) ∧
        ∀ p ∈ ranges, ¬ (payload lo size).Meets p ∨ (payload lo size).Surrounds p := by
  have hends : (∀ p ∈ ranges, ¬ (payload lo size).EndsIn p) ↔
      ∀ p ∈ ranges, ¬ (payload lo size).Meets p ∨ (payload lo size).Surrounds p :=
    forall₂_congr fun p hp => Range.not_endsIn_iff (payload_le hpos) (hranges p hp)
  rw [← hends]
  constructor
  · rintro ⟨ranges', hadd⟩
    obtain ⟨-, ha, hi, hall, -⟩ := addRange_ok_iff.mp hadd
    exact ⟨ha, hi, hall⟩
  · rintro ⟨ha, hi, hall⟩
    exact ⟨_, addRange_ok_iff.mpr ⟨hpos, ha, hi, hall, rfl⟩⟩

/-- A payload is accepted with the new list or rejected with a complaint. -/
theorem addRange_total (h : Heap) (ranges : List (Range Nat)) (lo : Nat) (hpos : 0 < size) :
    addRange h ranges lo size = some (.ok (payload lo size :: ranges)) ∨
      ∃ c, addRange h ranges lo size = some (.error c) := by
  unfold addRange
  rw [if_neg (Int.not_le.mpr hpos)]
  dsimp only
  split
  · exact Or.inr ⟨_, rfl⟩
  split
  · exact Or.inr ⟨_, rfl⟩
  split
  · exact Or.inr ⟨_, rfl⟩
  · exact Or.inl rfl

end Accept

theorem removeRange_sublist (ranges : List (Range Nat)) (lo : Nat) :
    (removeRange ranges lo).Sublist ranges := by
  induction ranges with
  | nil => exact List.Sublist.refl _
  | cons p ranges ih =>
      rw [removeRange]
      split
      · exact List.sublist_cons_self p ranges
      · exact ih.cons_cons p

/-! ## Runs of the range list -/

inductive RangeEvent
  | add (h : Heap) (lo : Nat) (size : Int)
  | remove (lo : Nat)
  | clear

/-- A rejected payload leaves the list as it was. -/
def rangeList : System (List (Range Nat)) RangeEvent where
  init ranges := ranges = []
  step ranges
    | .add h lo size =>
        (addRange h ranges lo size).map fun
          | .ok ranges' => ranges'
          | .error _ => ranges
    | .remove lo => some (removeRange ranges lo)
    | .clear => some []

def RangeEvent.Sized : RangeEvent → Prop
  | .add _ _ size => 0 < size
  | .remove _ => True
  | .clear => True

/-- What the list guarantees at any time: of two of its ranges the newer one is apart
from the older one or strictly surrounds it, so no two start at one address. -/
structure RangesTested (ranges : List (Range Nat)) : Prop where
  nonempty : ∀ p ∈ ranges, p.lo ≤ p.hi
  aligned : ∀ p ∈ ranges, isAligned p.lo
  pairs : ranges.Pairwise fun newer older => ¬ newer.Meets older ∨ newer.Surrounds older

section Runs

variable {ranges ranges' : List (Range Nat)}

theorem rangesTested_nil : RangesTested [] where
  nonempty _ h := by simp at h
  aligned _ h := by simp at h
  pairs := List.Pairwise.nil

theorem RangesTested.sublist (h : RangesTested ranges) (hs : ranges'.Sublist ranges) :
    RangesTested ranges' where
  nonempty p hp := h.nonempty p (hs.subset hp)
  aligned p hp := h.aligned p (hs.subset hp)
  pairs := h.pairs.sublist hs

theorem RangesTested.add {g : Heap} {lo : Nat} {size : Int} (h : RangesTested ranges)
    (hadd : addRange g ranges lo size = some (.ok ranges')) : RangesTested ranges' := by
  obtain ⟨hpos, ha, -, hall, rfl⟩ := addRange_ok_iff.mp hadd
  refine ⟨?_, ?_, ?_⟩
  · rintro p (_ | ⟨_, hp⟩)
    · exact payload_le hpos
    · exact h.nonempty p hp
  · rintro p (_ | ⟨_, hp⟩)
    · exact ha
    · exact h.aligned p hp
  · refine List.pairwise_cons.mpr ⟨fun p hp => ?_, h.pairs⟩
    exact (Range.not_endsIn_iff (payload_le hpos) (h.nonempty p hp)).mp (hall p hp)

theorem rangeList_step_tested {e : RangeEvent} (h : RangesTested ranges)
    (hstep : rangeList.step ranges e = some ranges') : RangesTested ranges' := by
  cases e with
  | add g lo size =>
      obtain ⟨r, hadd, rfl⟩ := Option.map_eq_some_iff.mp hstep
      cases r with
      | ok rs => exact h.add hadd
      | error c => exact h
  | remove lo =>
      cases hstep
      exact h.sublist (removeRange_sublist ranges lo)
  | clear =>
      cases hstep
      exact rangesTested_nil

theorem reachable_tested (h : rangeList.Reachable ranges) : RangesTested ranges :=
  rangeList.reachable_invariant (fun _ hs => hs ▸ rangesTested_nil)
    (fun _ _ _ h hstep => rangeList_step_tested h hstep) h

/-- No two ranges in the list start at one address, so `remove_range` takes out the
only range that it can mean. -/
theorem RangesTested.starts_nodup (h : RangesTested ranges) :
    (ranges.map Range.lo).Nodup := by
  refine List.pairwise_map.mpr (h.pairs.imp_of_mem fun {p q} hp hq hpq heq => ?_)
  rcases hpq with hpq | hpq
  · exact hpq ⟨p.lo, Range.contains_lo (h.nonempty p hp), heq ▸ Range.contains_lo (h.nonempty q hq)⟩
  · exact absurd heq hpq.1.ne

/-- At any time, an aligned payload inside the heap is accepted exactly when each
listed range is apart from it or strictly surrounded by it. -/
theorem rangeList_accepts_iff {h : Heap} {lo : Nat} {size : Int}
    (hreach : rangeList.Reachable ranges) (hpos : 0 < size) :
    (∃ ranges', addRange h ranges lo size = some (.ok ranges')) ↔
      isAligned lo ∧ insideHeap h (payload lo size) ∧
        ∀ p ∈ ranges, ¬ (payload lo size).Meets p ∨ (payload lo size).Surrounds p :=
  addRange_accepts_iff hpos (reachable_tested hreach).nonempty

def Apart (ranges : List (Range Nat)) : Prop :=
  ranges.Pairwise fun newer older => ¬ newer.Meets older

/-- The event adds a payload that strictly surrounds a listed range. -/
def RangeEvent.Swallows (ranges : List (Range Nat)) : RangeEvent → Prop
  | .add h lo size =>
      addRange h ranges lo size = some (.ok (payload lo size :: ranges)) ∧
        ∃ p ∈ ranges, (payload lo size).Surrounds p
  | .remove _ => False
  | .clear => False

theorem rangeList_step_disjoint {e : RangeEvent} (ht : RangesTested ranges)
    (hd : Apart ranges) (he : e.Sized) :
    ∃ ranges', rangeList.step ranges e = some ranges' ∧ RangesTested ranges' ∧
      (Apart ranges' ↔ ¬ e.Swallows ranges) := by
  cases e with
  | add g lo size =>
      rcases addRange_total g ranges lo he with hadd | ⟨c, hadd⟩
      · have hstep : rangeList.step ranges (.add g lo size) = some (payload lo size :: ranges) := by
          simp [rangeList, hadd]
        have ht' := rangeList_step_tested ht hstep
        refine ⟨_, hstep, ht', ?_⟩
        have hpairs := (List.pairwise_cons.mp ht'.pairs).1
        rw [Apart, List.pairwise_cons]
        constructor
        · rintro ⟨hall, -⟩ ⟨-, p, hp, hsur⟩
          exact hall p hp (hsur.meets (ht.nonempty p hp))
        · intro hnone
          refine ⟨fun p hp => ?_, hd⟩
          exact (hpairs p hp).resolve_right fun hsur => hnone ⟨hadd, p, hp, hsur⟩
      · refine ⟨ranges, by simp [rangeList, hadd], ht, iff_of_true hd ?_⟩
        rintro ⟨hok, -⟩
        simp [hadd] at hok
  | remove lo =>
      have hsub := removeRange_sublist ranges lo
      exact ⟨_, rfl, ht.sublist hsub, iff_of_true (hd.sublist hsub) not_false⟩
  | clear => exact ⟨[], rfl, rangesTested_nil, iff_of_true List.Pairwise.nil not_false⟩

/-- The list stays free of overlaps in exactly those runs in which no payload is added
that strictly surrounds a listed range. -/
theorem rangeList_disjoint_iff {es : List RangeEvent} (hes : ∀ e ∈ es, e.Sized) :
    rangeList.Always Apart [] es ↔
      rangeList.Meets (fun ranges e => ¬ e.Swallows ranges) [] es :=
  rangeList.always_iff_meets (fun _ _ ht hd he => rangeList_step_disjoint ht hd he)
    rangesTested_nil List.Pairwise.nil (rangeList.meets_of_mem hes [])

/-- A heap of 4 KiB, for the runs below. -/
def smallHeap : Heap := { memInit (fun _ => 0) 0 0 0 with memBrk := 4096 }

/-- A payload of 16 bytes, then one of 64 bytes around it. -/
def swallowing : List RangeEvent := [.add smallHeap 32 16, .add smallHeap 8 64]

theorem swallowing_disjoint_iff :
    rangeList.Always Apart [] swallowing ↔
      rangeList.Meets (fun ranges e => ¬ e.Swallows ranges) [] swallowing :=
  rangeList_disjoint_iff (by
    intro e he
    simp only [swallowing, List.mem_cons, List.not_mem_nil, or_false] at he
    rcases he with rfl | rfl
    · exact (by decide : (0 : Int) < 16)
    · exact (by decide : (0 : Int) < 64))

theorem swallowing_accepts_iff :
    (∃ ranges', addRange smallHeap [⟨32, 47⟩] 8 64 = some (.ok ranges')) ↔
      isAligned 8 ∧ insideHeap smallHeap (payload 8 64) ∧
        ∀ p ∈ [(⟨32, 47⟩ : Range Nat)],
          ¬ (payload 8 64).Meets p ∨ (payload 8 64).Surrounds p :=
  rangeList_accepts_iff
    ⟨[], [.add smallHeap 32 16], rfl, by decide +kernel⟩ (by decide)

end Runs

end CompOrg.Malloc
