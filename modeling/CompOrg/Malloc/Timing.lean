import CompOrg.Lib.Smallest
import Mathlib.Algebra.Order.Ring.Nat
import Mathlib.Logic.Function.Basic

/-! # The cycle timer of `fcyc.c` and `clock.c`

`fcyc` runs a function until the `kbest` smallest measurements are close to each other, or
until there are `maxsamples` of them, and returns the smallest. A measurement is the
difference of two readings of the cycle counter. The measurements are given, and so is the
test that compares the smallest of them with the one at the end of the array.
-/

namespace CompOrg.Malloc

/-! ## The counter -/

/-- `get_counter`, before the result is rounded to a `double`. -/
def getCounter (cycHi cycLo ncycHi ncycLo : UInt32) : Nat :=
  let lo := ncycLo - cycLo
  let borrow : UInt32 := if lo > ncycLo then 1 else 0
  let hi := ncycHi - cycHi - borrow
  hi.toNat * 2 ^ 30 * 4 + lo.toNat

/-- The words of a reading. -/
def reading (hi lo : UInt32) : Nat := hi.toNat * 2 ^ 32 + lo.toNat

/-- The difference of the readings, of which the second may have wrapped. -/
theorem getCounter_eq (cycHi cycLo ncycHi ncycLo : UInt32) :
    getCounter cycHi cycLo ncycHi ncycLo =
      (reading ncycHi ncycLo + (2 ^ 64 - reading cycHi cycLo)) % 2 ^ 64 := by
  have hhi := cycHi.toNat_lt
  have hlo := cycLo.toNat_lt
  have hnhi := ncycHi.toNat_lt
  have hnlo := ncycLo.toNat_lt
  unfold getCounter reading
  by_cases hborrow : ncycLo - cycLo > ncycLo
  · have hless : ncycLo.toNat < cycLo.toNat := by
      rw [gt_iff_lt, UInt32.lt_iff_toNat_lt, UInt32.toNat_sub] at hborrow
      omega
    simp only [if_pos hborrow, UInt32.toNat_sub, UInt32.toNat_one]
    omega
  · have hle : cycLo.toNat ≤ ncycLo.toNat := by
      rw [gt_iff_lt, UInt32.lt_iff_toNat_lt, UInt32.toNat_sub] at hborrow
      omega
    simp only [if_neg hborrow, UInt32.toNat_sub, UInt32.toNat_zero]
    omega

/-! ## The samples -/

section Samples

variable {α : Type*}

/-- The first cells of an array. -/
def cells (values : Nat → α) (n : Nat) : List α := (List.range n).map values

theorem cells_succ (values : Nat → α) (n : Nat) :
    cells values (n + 1) = cells values n ++ [values n] := by
  rw [cells, List.range_succ, List.map_append, List.map_singleton, cells]

theorem length_cells (values : Nat → α) (n : Nat) : (cells values n).length = n := by
  rw [cells, List.length_map, List.length_range]

theorem cells_update_of_le {values : Nat → α} {i n : Nat} (h : n ≤ i) (val : α) :
    cells (Function.update values i val) n = cells values n := by
  apply List.map_congr_left
  intro j hj
  have hne : j ≠ i := Nat.ne_of_lt ((List.mem_range.mp hj).trans_le h)
  exact Function.update_of_ne hne val values

variable [LinearOrder α]

structure Sampler (α : Type*) where
  values : Nat → α
  samplecount : Nat

/-- `while (pos > 0 && values[pos-1] > values[pos])` -/
def siftDown (values : Nat → α) : Nat → Nat → α
  | 0 => values
  | pos + 1 =>
      if values pos > values (pos + 1) then
        siftDown (Function.update (Function.update values pos (values (pos + 1))) (pos + 1)
          (values pos)) pos
      else values

def addSample (kbest : Nat) (s : Sampler α) (val : α) : Sampler α :=
  let (pos, values) :=
    if s.samplecount < kbest then
      (s.samplecount, Function.update s.values s.samplecount val)
    else if val < s.values (kbest - 1) then (kbest - 1, Function.update s.values (kbest - 1) val)
    else (0, s.values)
  ⟨siftDown values pos, s.samplecount + 1⟩

/-- The array holds the smallest of the samples taken so far, in order. -/
structure Keeps (kbest : Nat) (s : Sampler α) (samples : List α) : Prop where
  count : s.samplecount = samples.length
  best : cells s.values (min kbest samples.length) = smallest kbest samples

variable {values : Nat → α} {kbest n : Nat} {val : α} {s : Sampler α} {samples : List α}

theorem siftDown_above {pos i : Nat} (h : pos < i) : siftDown values pos i = values i := by
  induction pos generalizing values with
  | zero => rfl
  | succ pos ih =>
      rw [siftDown]
      split
      · rw [ih (by omega), Function.update_of_ne (by omega), Function.update_of_ne (by omega)]
      · rfl

/-- The value moves to its place among those in front of it. -/
theorem cells_siftDown (hsorted : (cells values n).Pairwise (· ≤ ·)) :
    cells (siftDown values n) (n + 1) = (cells values n).orderedInsert (· ≤ ·) (values n) := by
  induction n generalizing values with
  | zero => rfl
  | succ n ih =>
      rw [cells_succ values n] at hsorted ⊢
      obtain ⟨hfront, -, hbelow⟩ := List.pairwise_append.mp hsorted
      have hle : ∀ y ∈ cells values n, y ≤ values n := fun y hy =>
        hbelow y hy (values n) (List.mem_singleton.mpr rfl)
      rw [siftDown]
      by_cases hgt : values n > values (n + 1)
      · have hkeep : cells (Function.update (Function.update values n (values (n + 1))) (n + 1)
            (values n)) n = cells values n := by
          rw [cells_update_of_le (Nat.le_succ n), cells_update_of_le (le_refl n)]
        have hplace : Function.update (Function.update values n (values (n + 1))) (n + 1)
            (values n) n = values (n + 1) := by
          rw [Function.update_of_ne (by omega), Function.update_self]
        rw [if_pos hgt, cells_succ, ih (by rw [hkeep]; exact hfront), hkeep, hplace,
          siftDown_above (Nat.lt_succ_self n), Function.update_self,
          orderedInsert_append hgt.le]
      · have hall : ∀ y ∈ cells values n ++ [values n], y ≤ values (n + 1) := by
          intro y hy
          rcases List.mem_append.mp hy with hy | hy
          · exact (hle y hy).trans (not_lt.mp hgt)
          · rw [List.mem_singleton.mp hy]
            exact not_lt.mp hgt
        rw [if_neg hgt, cells_succ, cells_succ, orderedInsert_of_le hsorted hall]

theorem addSample_count (kbest : Nat) (s : Sampler α) (val : α) :
    (addSample kbest s val).samplecount = s.samplecount + 1 := rfl

theorem Keeps.nil (kbest : Nat) (values : Nat → α) : Keeps kbest ⟨values, 0⟩ [] :=
  ⟨rfl, by
    rw [List.length_nil, Nat.min_zero, smallest, List.insertionSort_nil, List.take_nil]
    rfl⟩

/-- Whatever the new sample, the array keeps the smallest ones. -/
theorem Keeps.addSample (hk : 0 < kbest) (h : Keeps kbest s samples) (val : α) :
    Keeps kbest (addSample kbest s val) (samples ++ [val]) := by
  have hsorted := pairwise_smallest kbest samples
  have hbest := h.best
  have hlength := length_smallest kbest samples
  refine ⟨by rw [addSample_count, h.count, List.length_append, List.length_singleton], ?_⟩
  rw [smallest_append, List.length_append, List.length_singleton]
  unfold Malloc.addSample
  by_cases hfew : s.samplecount < kbest
  · -- there is a free cell
    have hcount := h.count
    have hmin : min kbest samples.length = s.samplecount := by omega
    rw [hmin] at hbest hlength
    have hkeep : cells (Function.update s.values s.samplecount val) s.samplecount =
        smallest kbest samples := by
      rw [cells_update_of_le (le_refl _), hbest]
    have hsift := cells_siftDown (hkeep ▸ hsorted :
      (cells (Function.update s.values s.samplecount val) s.samplecount).Pairwise (· ≤ ·))
    rw [hkeep, Function.update_self] at hsift
    rw [if_pos hfew, show min kbest (samples.length + 1) = s.samplecount + 1 by omega]
    refine hsift.trans (List.take_of_length_le ?_).symm
    rw [List.orderedInsert_length]
    omega
  · have hcount := h.count
    obtain ⟨k, rfl⟩ := Nat.exists_eq_add_one_of_ne_zero hk.ne'
    have hmin : min (k + 1) samples.length = k + 1 := by omega
    rw [hmin] at hlength hbest
    rw [cells_succ] at hbest
    rw [if_neg hfew, show min (k + 1) (samples.length + 1) = k + 1 by omega, Nat.add_sub_cancel,
      ← hbest]
    rw [← hbest] at hsorted
    obtain ⟨hfront, -, hbelow⟩ := List.pairwise_append.mp hsorted
    by_cases hlt : val < s.values k
    · -- the last of them goes
      have hkeep : cells (Function.update s.values k val) k = cells s.values k :=
        cells_update_of_le (le_refl k) val
      have hsift := cells_siftDown (hkeep ▸ hfront :
        (cells (Function.update s.values k val) k).Pairwise (· ≤ ·))
      rw [hkeep, Function.update_self] at hsift
      rw [if_pos hlt, orderedInsert_append hlt.le]
      refine hsift.trans (List.take_left' ?_).symm
      rw [List.orderedInsert_length, length_cells]
    · have hall : ∀ y ∈ cells s.values k ++ [s.values k], y ≤ val := by
        intro y hy
        rcases List.mem_append.mp hy with hy | hy
        · exact (hbelow y hy _ (List.mem_singleton.mpr rfl)).trans (not_lt.mp hlt)
        · rw [List.mem_singleton.mp hy]
          exact not_lt.mp hlt
      rw [if_neg hlt, orderedInsert_of_le hsorted hall]
      refine (cells_succ s.values k).trans (List.take_left' ?_).symm
      rw [List.length_append, length_cells, List.length_singleton]

/-! ## The loop -/

/-- `has_converged`, with the test of the two ends of the array. -/
def hasConverged (kbest : Nat) (close : α → α → Bool) (s : Sampler α) : Bool :=
  decide (s.samplecount ≥ kbest) && close (s.values 0) (s.values (kbest - 1))

/-- `do .. while (!has_converged() && samplecount < maxsamples)`; `cyc n` is what run `n` of
the function takes. -/
def fcycLoop (kbest maxsamples : Nat) (close : α → α → Bool) (cyc : Nat → α) (s : Sampler α) :
    Sampler α :=
  if !hasConverged kbest close (addSample kbest s (cyc s.samplecount)) ∧
      s.samplecount + 1 < maxsamples then
    fcycLoop kbest maxsamples close cyc (addSample kbest s (cyc s.samplecount))
  else addSample kbest s (cyc s.samplecount)
termination_by maxsamples - s.samplecount
decreasing_by
  rw [addSample_count]
  omega

/-- The array that `calloc` gives holds zeros. -/
def fcyc [Zero α] (kbest maxsamples : Nat) (close : α → α → Bool) (cyc : Nat → α) : α :=
  (fcycLoop kbest maxsamples close cyc ⟨fun _ => 0, 0⟩).values 0

/-- After `n` runs of the function no more are needed. -/
def Suffices (kbest maxsamples : Nat) (close : α → α → Bool) (cyc : Nat → α) (n : Nat) : Prop :=
  maxsamples ≤ n ∨ kbest ≤ n ∧ ∀ least last,
    (smallest kbest (cells cyc n)).head? = some least →
    (smallest kbest (cells cyc n)).getLast? = some last → close least last = true

variable {maxsamples : Nat} {close : α → α → Bool} {cyc : Nat → α}

omit [LinearOrder α] in
theorem head?_cells (values : Nat → α) (n : Nat) : (cells values (n + 1)).head? = some (values 0) := by
  rw [cells, List.range_succ_eq_map]
  rfl

theorem Keeps.head? (hk : 0 < kbest) (h : Keeps kbest s samples) (hpos : 0 < samples.length) :
    (smallest kbest samples).head? = some (s.values 0) := by
  obtain ⟨n, hn⟩ := Nat.exists_eq_add_one_of_ne_zero (by omega : min kbest samples.length ≠ 0)
  rw [← h.best, hn, head?_cells]

theorem Keeps.converged_iff (hk : 0 < kbest) (h : Keeps kbest s (cells cyc n)) (hn : 0 < n) :
    (hasConverged kbest close s = true ∨ maxsamples ≤ n) ↔
      Suffices kbest maxsamples close cyc n := by
  have hcount : s.samplecount = n := h.count.trans (length_cells cyc n)
  have hhead := h.head? hk (by rw [length_cells]; exact hn)
  rw [hasConverged, Suffices, hcount, Bool.and_eq_true, decide_eq_true_eq, or_comm, hhead]
  refine or_congr Iff.rfl (and_congr_right fun hle => ?_)
  obtain ⟨k, rfl⟩ := Nat.exists_eq_add_one_of_ne_zero hk.ne'
  have hlast : (smallest (k + 1) (cells cyc n)).getLast? = some (s.values k) := by
    rw [← h.best, length_cells, min_eq_left hle, cells_succ, List.getLast?_concat]
  rw [hlast]
  constructor
  · rintro hclose _ _ ⟨⟩ ⟨⟩
    exact hclose
  · exact fun hall => hall _ _ rfl rfl

theorem fcycLoop_spec (hk : 0 < kbest) {s : Sampler α} {n : Nat}
    (h : Keeps kbest s (cells cyc n)) :
    ∃ stop > n, Keeps kbest (fcycLoop kbest maxsamples close cyc s) (cells cyc stop) ∧
      Suffices kbest maxsamples close cyc stop ∧
      ∀ m, n < m → m < stop → ¬ Suffices kbest maxsamples close cyc m := by
  have hcount : s.samplecount = n := h.count.trans (length_cells cyc n)
  have hstep := h.addSample hk (cyc s.samplecount)
  rw [hcount, ← cells_succ] at hstep
  have hiff : (hasConverged kbest close (Malloc.addSample kbest s (cyc n)) = true ∨
      maxsamples ≤ n + 1) ↔ Suffices kbest maxsamples close cyc (n + 1) :=
    hstep.converged_iff hk n.succ_pos
  rw [fcycLoop, hcount]
  by_cases hgo : (!hasConverged kbest close (Malloc.addSample kbest s (cyc n))) = true ∧
      n + 1 < maxsamples
  · have hnot : ¬ Suffices kbest maxsamples close cyc (n + 1) := by
      rw [← hiff]
      rintro (hconverged | hmax)
      · rw [hconverged] at hgo
        exact Bool.false_ne_true hgo.1
      · exact absurd hgo.2 (not_lt.mpr hmax)
    obtain ⟨stop, hstop, hkeeps, hsuffices, hbefore⟩ := fcycLoop_spec hk hstep
    rw [if_pos hgo]
    refine ⟨stop, by omega, hkeeps, hsuffices, fun m hm hlt => ?_⟩
    by_cases heq : m = n + 1
    · rw [heq]
      exact hnot
    · exact hbefore m (by omega) hlt
  · rw [if_neg hgo]
    refine ⟨n + 1, Nat.lt_succ_self n, hstep, hiff.mp ?_, fun m hm hlt => by omega⟩
    by_contra hneither
    rw [not_or] at hneither
    exact hgo ⟨by rw [Bool.eq_false_iff.mpr hneither.1]; rfl, not_le.mp hneither.2⟩
termination_by maxsamples - n

/-- `fcyc` stops at the first number of runs that suffices, and returns the shortest one. -/
theorem fcyc_returns [Zero α] (hk : 0 < kbest) (maxsamples : Nat) (close : α → α → Bool)
    (cyc : Nat → α) :
    ∃ runs > 0, Suffices kbest maxsamples close cyc runs ∧
      (∀ m, 0 < m → m < runs → ¬ Suffices kbest maxsamples close cyc m) ∧
      (∃ i < runs, fcyc kbest maxsamples close cyc = cyc i) ∧
      ∀ i < runs, fcyc kbest maxsamples close cyc ≤ cyc i := by
  have hstart : Keeps kbest ⟨fun _ => (0 : α), 0⟩ (cells cyc 0) := Keeps.nil kbest _
  obtain ⟨runs, hpos, hkeeps, hsuffices, hbefore⟩ :
      ∃ runs > 0, Keeps kbest (fcycLoop kbest maxsamples close cyc ⟨fun _ => 0, 0⟩)
          (cells cyc runs) ∧ Suffices kbest maxsamples close cyc runs ∧
        ∀ m, 0 < m → m < runs → ¬ Suffices kbest maxsamples close cyc m :=
    fcycLoop_spec hk hstart
  have hhead := hkeeps.head? hk (by rw [length_cells]; exact hpos)
  obtain ⟨hmem, hle⟩ := head_smallest_le hk hhead
  refine ⟨runs, hpos, hsuffices, hbefore, ?_, fun i hi => ?_⟩
  · obtain ⟨i, hi, heq⟩ := List.mem_map.mp hmem
    exact ⟨i, List.mem_range.mp hi, heq.symm⟩
  · exact hle _ (List.mem_map.mpr ⟨i, List.mem_range.mpr hi, rfl⟩)

/-- A slow first run is not counted. -/
theorem fcyc_warm :
    fcyc 3 20 (fun least last => decide (last * 100 ≤ least * 101))
      (fun i => if i = 0 then 900 else 500) = 500 := by
  obtain ⟨runs, -, hsuffices, -, ⟨i, -, heq⟩, hle⟩ :=
    fcyc_returns (by decide : 0 < 3) 20 (fun least last : Nat => decide (last * 100 ≤ least * 101))
      fun i => if i = 0 then 900 else 500
  have hruns : 3 ≤ runs := hsuffices.elim (fun h => (by decide : 3 ≤ 20).trans h) fun h => h.1
  have hone := hle 1 (by omega)
  rw [if_neg (by decide)] at hone
  split at heq <;> omega

end Samples

end CompOrg.Malloc
