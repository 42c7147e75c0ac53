import CompOrg.Lib.CStdlib
import CompOrg.Malloc.Allocator
import CompOrg.Malloc.Driver

/-! # Running a trace through the allocator

The three loops of `mdriver.c` over the requests of one trace: the check of every
result, the measure of the space used, and the plain run that is timed. The arrays
`blocks` and `block_sizes` are `malloc`ed with the trace and start with whatever was
there. A result `none` stands for a run that does not come back or is undefined: an
access outside the arrays, a failed assertion, an `int` out of range, or a search of
the allocator that never ends.
-/

namespace CompOrg.Malloc

open Memory

/-! ## Traces -/

inductive OpType
  | alloc
  | free
  | realloc
  deriving DecidableEq

/-- The size of a `free` request is not assigned. -/
structure TraceOp where
  type : OpType
  index : Int
  size : Int
  deriving DecidableEq

/-- `num_ops` is the length of the list. -/
structure Trace where
  numIds : Int
  ops : List TraceOp
  deriving DecidableEq

/-- What the loops share: the heap, the range list and the arrays of the trace. -/
structure Driver where
  heap : Heap
  ranges : List (Range Nat)
  blocks : Nat → Nat
  blockSizes : Nat → Nat

/-- Conversion of an `int` to the `size_t` parameter of the allocator. -/
def sizeArg (n : Int) : Nat := (n % 2 ^ 32).toNat

/-- An index into the arrays of a trace. -/
def slot (numIds index : Int) : Option Nat :=
  if 0 ≤ index ∧ index < numIds then some index.toNat else none

def remember (numIds : Int) (d : Driver) (index : Int) (p : Nat) (size : Int) : Option Driver :=
  (slot numIds index).map fun i =>
    { d with
      blocks := Function.update d.blocks i p
      blockSizes := Function.update d.blockSizes i (sizeArg size) }

def Heap.fill (h : Heap) (p : Nat) (index size : Int) : Heap :=
  { h with mem := fillBytes h.mem p (UInt8.ofNat (index % 256).toNat) (sizeArg size) }

/-! ## Correctness -/

/-- A `char`, which is signed, as the `int` it is compared as. -/
def charValue (b : UInt8) : Int := if b.toNat < 128 then b.toNat else (b.toNat : Int) - 256

/-- The loop over the old bytes never finds `newp[j] != (index & 0xFF)`. -/
def preserved (m : Memory) (newp : Nat) (oldsize index : Int) : Prop :=
  ∀ j < oldsize.toNat, charValue (m (newp + j)) = index % 256

instance (m : Memory) (newp : Nat) (oldsize index : Int) :
    Decidable (preserved m newp oldsize index) :=
  inferInstanceAs (Decidable (∀ j < oldsize.toNat, charValue (m (newp + j)) = index % 256))

def checkAlloc (numIds : Int) (d : Driver) (op : TraceOp) :
    Option (Driver × Option Complaint) :=
  match mmMalloc d.heap (sizeArg op.size) with
  | none => none
  | some (h, p) =>
      if p = 0 then some ({ d with heap := h }, some .mallocFailed)
      else
        match addRange h d.ranges p op.size with
        | none => none
        | some (.error c) => some ({ d with heap := h }, some c)
        | some (.ok ranges) =>
            let d := { d with heap := h.fill p op.index op.size, ranges := ranges }
            (remember numIds d op.index p op.size).map fun d => (d, none)

def checkRealloc (numIds : Int) (d : Driver) (op : TraceOp) :
    Option (Driver × Option Complaint) :=
  match slot numIds op.index with
  | none => none
  | some i =>
      let oldp := d.blocks i
      match mmRealloc d.heap oldp (sizeArg op.size) with
      | none => none
      | some (h, newp) =>
          if newp = 0 then some ({ d with heap := h }, some .reallocFailed)
          else
            let ranges := removeRange d.ranges oldp
            match addRange h ranges newp op.size with
            | none => none
            | some (.error c) => some ({ d with heap := h, ranges := ranges }, some c)
            | some (.ok ranges) =>
                let d := { d with heap := h, ranges := ranges }
                let oldsize := toInt (d.blockSizes i)
                let oldsize := if op.size < oldsize then op.size else oldsize
                if ¬ preserved h.mem newp oldsize op.index then some (d, some .notPreserved)
                else
                  let d := { d with heap := h.fill newp op.index op.size }
                  (remember numIds d op.index newp op.size).map fun d => (d, none)

def checkFree (numIds : Int) (d : Driver) (op : TraceOp) : Option (Driver × Option Complaint) :=
  (slot numIds op.index).map fun i =>
    let p := d.blocks i
    ({ d with heap := mmFree d.heap p, ranges := removeRange d.ranges p }, none)

def checkOp (numIds : Int) (d : Driver) (op : TraceOp) : Option (Driver × Option Complaint) :=
  match op.type with
  | .alloc => checkAlloc numIds d op
  | .realloc => checkRealloc numIds d op
  | .free => checkFree numIds d op

/-- The arguments of `malloc_error`. -/
structure Report where
  tracenum : Nat
  opnum : Nat
  complaint : Complaint
  deriving DecidableEq

/-- `LINENUM(opnum)` -/
def Report.line (r : Report) : Nat := r.opnum + 5

/-- The loop from request `i` on; it ends with the first complaint. -/
def checkOps (numIds : Int) (tracenum : Nat) : Nat → Driver → List TraceOp →
    Option (Driver × Option Report)
  | _, d, [] => some (d, none)
  | i, d, op :: ops =>
      match checkOp numIds d op with
      | none => none
      | some (d, some c) => some (d, some ⟨tracenum, i, c⟩)
      | some (d, none) => checkOps numIds tracenum (i + 1) d ops

/-- The result is `1` when there is no report, and `0` otherwise. -/
def evalMmValid (t : Trace) (tracenum : Nat) (d : Driver) : Option (Driver × Option Report) :=
  let (h, r) := mmInit (memResetBrk d.heap)
  let d := { d with heap := h, ranges := [] }
  if r < 0 then some (d, some ⟨tracenum, 0, .initFailed⟩)
  else checkOps t.numIds tracenum 0 d t.ops

/-! ## Space -/

/-- Messages of `app_error`, which ends the program. -/
inductive AppError
  | initUtil
  | mallocUtil
  | reallocUtil
  | initSpeed
  | mallocSpeed
  | reallocSpeed
  deriving DecidableEq

def AppError.text : AppError → String
  | .initUtil => "mm_init failed in eval_mm_util"
  | .mallocUtil => "mm_malloc failed in eval_mm_util"
  | .reallocUtil => "mm_realloc failed in eval_mm_util"
  | .initSpeed => "mm_init failed in eval_mm_speed"
  | .mallocSpeed => "mm_malloc error in eval_mm_speed"
  | .reallocSpeed => "mm_realloc error in eval_mm_speed"

structure Usage where
  driver : Driver
  totalSize : Int
  maxTotalSize : Int

/-- `total_size += delta` and the update of the high water mark. -/
def Usage.add (u : Usage) (delta : Int) : Option Usage :=
  (intResult (u.totalSize + delta)).map fun totalSize =>
    { u with
      totalSize := totalSize
      maxTotalSize := if totalSize > u.maxTotalSize then totalSize else u.maxTotalSize }

def useOp (numIds : Int) (u : Usage) (op : TraceOp) : Option (Except AppError Usage) :=
  let d := u.driver
  match op.type with
  | .alloc =>
      match mmMalloc d.heap (sizeArg op.size) with
      | none => none
      | some (h, p) =>
          if p = 0 then some (.error .mallocUtil)
          else (remember numIds { d with heap := h } op.index p op.size).bind fun d =>
            ({ u with driver := d }.add op.size).map .ok
  | .realloc =>
      match slot numIds op.index with
      | none => none
      | some i =>
          let oldsize := toInt (d.blockSizes i)
          match mmRealloc d.heap (d.blocks i) (sizeArg op.size) with
          | none => none
          | some (h, newp) =>
              if newp = 0 then some (.error .reallocUtil)
              else (remember numIds { d with heap := h } op.index newp op.size).bind fun d =>
                (intResult (op.size - oldsize)).bind fun delta =>
                  ({ u with driver := d }.add delta).map .ok
  | .free =>
      (slot numIds op.index).bind fun i =>
        let size := toInt (d.blockSizes i)
        let d := { d with heap := mmFree d.heap (d.blocks i) }
        (intResult (u.totalSize - size)).map fun totalSize =>
          .ok { u with driver := d, totalSize := totalSize }

def useOps (numIds : Int) : Usage → List TraceOp → Option (Except AppError Usage)
  | u, [] => some (.ok u)
  | u, op :: ops =>
      match useOp numIds u op with
      | none => none
      | some (.error e) => some (.error e)
      | some (.ok u) => useOps numIds u ops

/-- The two numbers whose quotient is returned. -/
structure Utilization where
  highWater : Int
  heapsize : Nat
  deriving DecidableEq

def evalMmUtil (t : Trace) (d : Driver) : Option (Except AppError (Driver × Utilization)) :=
  let (h, r) := mmInit (memResetBrk d.heap)
  if r < 0 then some (.error .initUtil)
  else
    (useOps t.numIds ⟨{ d with heap := h }, 0, 0⟩ t.ops).map fun
      | .error e => .error e
      | .ok u => .ok (u.driver, ⟨u.maxTotalSize, memHeapsize u.driver.heap⟩)

/-! ## The timed run -/

/-- Only the pointers are remembered. -/
def rememberBlock (numIds : Int) (d : Driver) (index : Int) (p : Nat) : Option Driver :=
  (slot numIds index).map fun i => { d with blocks := Function.update d.blocks i p }

def speedOp (numIds : Int) (d : Driver) (op : TraceOp) : Option (Except AppError Driver) :=
  match op.type with
  | .alloc =>
      match mmMalloc d.heap (sizeArg op.size) with
      | none => none
      | some (h, p) =>
          if p = 0 then some (.error .mallocSpeed)
          else (rememberBlock numIds { d with heap := h } op.index p).map .ok
  | .realloc =>
      match slot numIds op.index with
      | none => none
      | some i =>
          match mmRealloc d.heap (d.blocks i) (sizeArg op.size) with
          | none => none
          | some (h, newp) =>
              if newp = 0 then some (.error .reallocSpeed)
              else (rememberBlock numIds { d with heap := h } op.index newp).map .ok
  | .free =>
      (slot numIds op.index).map fun i =>
        .ok { d with heap := mmFree d.heap (d.blocks i) }

def speedOps (numIds : Int) : Driver → List TraceOp → Option (Except AppError Driver)
  | d, [] => some (.ok d)
  | d, op :: ops =>
      match speedOp numIds d op with
      | none => none
      | some (.error e) => some (.error e)
      | some (.ok d) => speedOps numIds d ops

def evalMmSpeed (t : Trace) (d : Driver) : Option (Except AppError Driver) :=
  let (h, r) := mmInit (memResetBrk d.heap)
  if r < 0 then some (.error .initSpeed)
  else speedOps t.numIds { d with heap := h } t.ops

end CompOrg.Malloc
