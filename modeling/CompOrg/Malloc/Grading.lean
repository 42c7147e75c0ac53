import CompOrg.Malloc.Utilization

/-! # Grading a list of traces

The main loop of the driver: each trace is checked, and a trace that passes is
measured and timed on the same heap. One memory region serves all traces, so each
starts over the bytes, the globals and the range list that the one before left.
-/

namespace CompOrg.Malloc

open Segments

/-- `stats_t` without the time; the utilization of an invalid trace is not set. -/
structure Stats where
  ops : Nat
  valid : Bool
  util : Option Utilization
  deriving DecidableEq

/-- Go on with the result of a part of the program that has come back. -/
def andThen {α β : Type} (x : Option (Except AppError α))
    (f : α → Option (Except AppError β)) : Option (Except AppError β) :=
  match x with
  | none => none
  | some (.error e) => some (.error e)
  | some (.ok a) => f a

@[simp] theorem andThen_ok {α β : Type} (a : α) (f : α → Option (Except AppError β)) :
    andThen (some (.ok a)) f = f a := rfl

/-- `fsecs` runs the function some number of times; ten in this configuration. -/
def timeSpeed (t : Trace) : Nat → Driver → Option (Except AppError Driver)
  | 0, d => some (.ok d)
  | n + 1, d => andThen (evalMmSpeed t d) (timeSpeed t n)

/-- Body of the loop over the traces, with what it prints through `malloc_error`. -/
def gradeTrace (runs tracenum : Nat) (t : Trace) (d : Driver) :
    Option (Except AppError (Driver × Stats × Option Report)) :=
  (evalMmValid t tracenum d).bind fun
    | (d, some r) => some (.ok (d, ⟨t.ops.length, false, none⟩, some r))
    | (d, none) =>
        andThen (evalMmUtil t d) fun (d, util) =>
          andThen (timeSpeed t runs d) fun d =>
            some (.ok (d, ⟨t.ops.length, true, some util⟩, none))

/-- The traces from number `i` on; `arrays` is what `read_trace` was given for
`blocks` and `block_sizes`. -/
def gradeTraces (runs : Nat) (arrays : Nat → (Nat → Nat) × (Nat → Nat)) :
    Nat → Driver → List Trace → Option (Except AppError (List Stats × List Report))
  | _, _, [] => some (.ok ([], []))
  | i, d, t :: ts =>
      let d := { d with blocks := (arrays i).1, blockSizes := (arrays i).2 }
      andThen (gradeTrace runs i t d) fun (d, s, r) =>
        andThen (gradeTraces runs arrays (i + 1) d ts) fun (ss, rs) =>
          some (.ok (s :: ss, r.toList ++ rs))

/-- The last line of the output: a performance index, or the number of errors. -/
inductive Closing
  | perfIndex
  | terminated (errors : Nat)
  deriving DecidableEq

/-- What is left after the loop: the statistics, `numcorrect` and the last line. -/
structure Outcome where
  stats : List Stats
  numcorrect : Nat
  closing : Closing
  deriving DecidableEq

def closing (reports : List Report) : Closing :=
  if reports.length = 0 then .perfIndex else .terminated reports.length

def grade (runs : Nat) (arrays : Nat → (Nat → Nat) × (Nat → Nat)) (d : Driver)
    (ts : List Trace) : Option (Except AppError Outcome) :=
  andThen (gradeTraces runs arrays 0 d ts) fun (stats, reports) =>
    some (.ok ⟨stats, stats.countP Stats.valid, closing reports⟩)

/-! ## The timed run -/

section Speed

variable {numIds : Int} {d : Driver} {r r' : Replay} {t : Trace}

theorem speedOp_eq {ids : List Nat} {op : TraceOp} (T : Tracks d.heap d.blocks r)
    (hop : op.WellFormed numIds ids) (hserve : r.serve op = some r') :
    ∃ d', speedOp numIds d op = some (.ok d') ∧ Tracks d'.heap d'.blocks r' ∧
      d'.heap.memStartBrk = d.heap.memStartBrk := by
  obtain ⟨⟨h0, hi⟩, -, hsize⟩ := hop
  obtain ⟨type, index, size⟩ := op
  obtain ⟨i, rfl⟩ := Int.eq_ofNat_of_zero_le h0
  dsimp only at hi
  have hslot : slot numIds i = some i := slot_eq (by omega) hi
  cases type with
  | alloc =>
      obtain ⟨hs0, hs⟩ := hsize (by simp)
      obtain ⟨s, rfl⟩ := Int.eq_ofNat_of_zero_le hs0
      dsimp only at hs
      obtain ⟨h', p, a, o, hcall, hp, -, T', hstart⟩ := T.alloc_served (by omega) hserve
      refine ⟨{ d with heap := h', blocks := Function.update d.blocks i p }, ?_, T', hstart⟩
      simp only [speedOp, sizeArg_eq (show (0 : Int) ≤ s by omega) hs, Int.toNat_natCast, hcall,
        if_neg hp, rememberBlock, hslot, Option.map_some]
  | realloc =>
      obtain ⟨hs0, hs⟩ := hsize (by simp)
      obtain ⟨s, rfl⟩ := Int.eq_ofNat_of_zero_le hs0
      dsimp only at hs
      obtain ⟨h', p, a, o, hcall, hp, -, T', hstart⟩ := T.realloc_served (by omega) hserve
      refine ⟨{ d with heap := h', blocks := Function.update d.blocks i p }, ?_, T', hstart⟩
      simp only [speedOp, sizeArg_eq (show (0 : Int) ≤ s by omega) hs, Int.toNat_natCast, hcall,
        if_neg hp, rememberBlock, hslot, Option.map_some]
  | free =>
      obtain ⟨-, T', hstart⟩ := T.free_served hserve
      exact ⟨{ d with heap := mmFree d.heap (d.blocks i) }, by simp [speedOp, hslot], T', hstart⟩

theorem speedOps_eq {ids : List Nat} {ops : List TraceOp} (T : Tracks d.heap d.blocks r)
    (hops : OpsWellFormed numIds ids ops) (hrun : Replay.replay.run r ops = some r') :
    ∃ d', speedOps numIds d ops = some (.ok d') ∧ Tracks d'.heap d'.blocks r' ∧
      d'.heap.memStartBrk = d.heap.memStartBrk := by
  induction ops generalizing d r ids with
  | nil =>
      cases hrun
      exact ⟨d, rfl, T, rfl⟩
  | cons op ops ih =>
      obtain ⟨m, hm, hrun'⟩ := Replay.replay.run_cons_some hrun
      obtain ⟨d', heq, T', hstart⟩ := speedOp_eq T hops.1 hm
      obtain ⟨d'', heq', T'', hstart'⟩ := ih T' hops.2 hrun'
      exact ⟨d'', by rw [speedOps, heq]; exact heq', T'', hstart'.trans hstart⟩

theorem evalMmSpeed_eq (H : Region d.heap) (ht : t.WellFormed)
    (hrun : Replay.replay.run Replay.initial t.ops = some r) :
    ∃ d', evalMmSpeed t d = some (.ok d') ∧ Region d'.heap := by
  obtain ⟨hzero, T, -⟩ := tracks_initial H d.blocks
  have T₀ : Tracks ({ d with heap := (mmInit (memResetBrk d.heap)).1 } : Driver).heap
      ({ d with heap := (mmInit (memResetBrk d.heap)).1 } : Driver).blocks Replay.initial := T
  obtain ⟨d', heq, T', -⟩ := speedOps_eq T₀ ht hrun
  refine ⟨d', ?_, T'.heap.region⟩
  rw [evalMmSpeed]
  dsimp only
  rw [if_neg (by omega)]
  exact heq

/-- Each run starts over the heap of the one before, and all of them go through. -/
theorem timeSpeed_eq (n : Nat) (H : Region d.heap) (ht : t.WellFormed)
    (hrun : Replay.replay.run Replay.initial t.ops = some r) :
    ∃ d', timeSpeed t n d = some (.ok d') ∧ Region d'.heap := by
  induction n generalizing d with
  | zero => exact ⟨d, rfl, H⟩
  | succ n ih =>
      obtain ⟨d', heq, H'⟩ := evalMmSpeed_eq H ht hrun
      obtain ⟨d'', heq', H''⟩ := ih H'
      exact ⟨d'', by rw [timeSpeed, heq, andThen_ok, heq'], H''⟩

end Speed

/-! ## Each trace as if it were alone -/

/-- The statistics of a trace, from next fit alone. -/
def Trace.stats (t : Trace) : Stats :=
  match Replay.initial.verdict 0 0 t.ops, Replay.replay.run Replay.initial t.ops with
  | none, some r =>
      ⟨t.ops.length, true, some ⟨t.highWater, firstOffset + span r.next.blocks⟩⟩
  | _, _ => ⟨t.ops.length, false, none⟩

/-- The complaints about the traces from number `i` on. -/
def reportsFrom : Nat → List Trace → List Report
  | _, [] => []
  | i, t :: ts => (Replay.initial.verdict i 0 t.ops).toList ++ reportsFrom (i + 1) ts

section Grade

variable {d : Driver} {t : Trace} {ts : List Trace}

/-- Whether there is a complaint does not depend on the number of the trace. -/
theorem Replay.verdict_isNone (tracenum tracenum' i : Nat) (r : Replay) (ops : List TraceOp) :
    r.verdict tracenum i ops = none ↔ r.verdict tracenum' i ops = none := by
  rw [Replay.verdict_none_iff, Replay.verdict_none_iff]

theorem gradeTrace_eq (runs tracenum : Nat) (H : Region d.heap) (ht : t.WellFormed) :
    ∃ d', gradeTrace runs tracenum t d =
        some (.ok (d', t.stats, Replay.initial.verdict tracenum 0 t.ops)) ∧ Region d'.heap := by
  obtain ⟨d₁, heq, H₁, -⟩ := evalMmValid_eq_verdict tracenum H ht
  rw [gradeTrace, heq, Option.bind_some]
  rcases hv : Replay.initial.verdict tracenum 0 t.ops with _ | r
  · -- a valid trace is served, so the other two loops go through as well
    obtain ⟨⟨r, hrun⟩, -⟩ := Replay.verdict_none_iff.mp hv
    obtain ⟨d₂, hutil, H₂, -⟩ := evalMmUtil_eq H₁ ht hrun
    obtain ⟨d₃, hspeed, H₃⟩ := timeSpeed_eq runs H₂ ht hrun
    have hzero := (Replay.verdict_isNone tracenum 0 0 Replay.initial t.ops).mp hv
    refine ⟨d₃, ?_, H₃⟩
    simp only [hutil, hspeed, andThen_ok, Trace.stats, hzero, hrun]
  · have hzero : Replay.initial.verdict 0 0 t.ops ≠ none := by
      rw [Ne, Replay.verdict_isNone 0 tracenum, hv]
      simp
    obtain ⟨r', hr'⟩ := Option.ne_none_iff_exists'.mp hzero
    exact ⟨d₁, by simp only [Trace.stats, hr'], H₁⟩

theorem gradeTraces_eq (runs : Nat) (arrays : Nat → (Nat → Nat) × (Nat → Nat)) (i : Nat)
    (H : Region d.heap) (hts : ∀ t ∈ ts, t.WellFormed) :
    gradeTraces runs arrays i d ts = some (.ok (ts.map Trace.stats, reportsFrom i ts)) := by
  induction ts generalizing i d with
  | nil => rfl
  | cons t ts ih =>
      obtain ⟨d', heq, H'⟩ := gradeTrace_eq
        (d := { d with blocks := (arrays i).1, blockSizes := (arrays i).2 }) runs i H
        (hts t List.mem_cons_self)
      simp only [gradeTraces, heq, andThen_ok,
        ih (i + 1) H' fun t ht => hts t (List.mem_cons_of_mem _ ht), List.map_cons, reportsFrom]

/-- A trace is valid or reported, and reported once. -/
theorem Trace.stats_valid_iff (t : Trace) (i : Nat) :
    t.stats.valid = true ↔ Replay.initial.verdict i 0 t.ops = none := by
  rw [Replay.verdict_isNone i 0, Trace.stats]
  constructor
  · intro h
    split at h
    next hnone _ => exact hnone
    next => simp at h
  · intro h
    obtain ⟨⟨r, hrun⟩, -⟩ := Replay.verdict_none_iff.mp h
    simp only [h, hrun]

theorem countP_valid_add_reports (i : Nat) (ts : List Trace) :
    (ts.map Trace.stats).countP Stats.valid + (reportsFrom i ts).length = ts.length := by
  induction ts generalizing i with
  | nil => rfl
  | cons t ts ih =>
      have hvalid := t.stats_valid_iff i
      have hrest := ih (i + 1)
      rw [List.map_cons, List.countP_cons, reportsFrom, List.length_append, List.length_cons]
      rcases hv : Replay.initial.verdict i 0 t.ops with _ | r
      · rw [if_pos (hvalid.mpr hv), Option.toList_none, List.length_nil]
        omega
      · rw [if_neg (by rw [hvalid, hv]; simp), Option.toList_some, List.length_singleton]
        omega

/-- From any memory, globals, range list and arrays, and for any number of timed runs,
the driver grades every trace as if it were alone and never stops with an error of its
own. It ends with a performance index when every trace is valid, and otherwise with
one error for each trace that is not. -/
theorem grade_eq (runs : Nat) (arrays : Nat → (Nat → Nat) × (Nat → Nat)) (ts : List Trace)
    (H : Region d.heap) (hts : ∀ t ∈ ts, t.WellFormed) :
    ∃ correct errors, correct + errors = ts.length ∧
      correct = (ts.map Trace.stats).countP Stats.valid ∧
      grade runs arrays d ts = some (.ok ⟨ts.map Trace.stats, correct,
        if errors = 0 then .perfIndex else .terminated errors⟩) := by
  refine ⟨_, (reportsFrom 0 ts).length, countP_valid_add_reports 0 ts, rfl, ?_⟩
  rw [grade, gradeTraces_eq runs arrays 0 H hts]
  rfl

end Grade

/-- A trace that is served and shrinks, grows and frees its blocks. -/
def servedTrace : Trace :=
  ⟨2, [⟨.alloc, 0, 16⟩, ⟨.alloc, 1, 5000⟩, ⟨.realloc, 0, 32⟩, ⟨.free, 1, 0⟩, ⟨.alloc, 1, 7⟩]⟩

theorem servedTrace_utilization :
    ∃ (r : Replay) (d' : Driver), evalMmUtil servedTrace staleDriver =
        some (.ok (d', ⟨servedTrace.highWater, firstOffset + span r.next.blocks⟩)) ∧
      Region d'.heap ∧ d'.heap.memStartBrk = staleDriver.heap.memStartBrk ∧
      0 ≤ servedTrace.highWater ∧
      servedTrace.highWater + 24 ≤ (firstOffset + span r.next.blocks : Nat) := by
  obtain ⟨r, hrun⟩ : ∃ r, Replay.replay.run Replay.initial servedTrace.ops = some r :=
    Option.isSome_iff_exists.mp (by decide +kernel)
  exact ⟨r, evalMmUtil_eq staleDriver_region (by decide) hrun⟩

theorem twoTraces_grade :
    ∃ correct errors, correct + errors = 2 ∧
      correct = ([servedTrace, growing].map Trace.stats).countP Stats.valid ∧
      grade 10 (fun _ => (fun i => i, fun i => i)) staleDriver [servedTrace, growing] =
        some (.ok ⟨[servedTrace, growing].map Trace.stats, correct,
          if errors = 0 then .perfIndex else .terminated errors⟩) :=
  grade_eq 10 (fun _ => (fun i => i, fun i => i)) [servedTrace, growing] staleDriver_region
    (by decide)

/-- The second trace is reported although next fit serves it. -/
example : servedTrace.stats = ⟨5, true, some ⟨5032, 9120⟩⟩ ∧ growing.stats = ⟨2, false, none⟩ := by
  decide +kernel

end CompOrg.Malloc
