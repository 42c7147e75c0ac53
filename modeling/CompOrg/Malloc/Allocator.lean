import CompOrg.Malloc.Memlib

/-! # The implicit free list allocator of `mm.c`

Every function follows the C text statement by statement, including the order of
its tag writes: a later macro reads the tags that an earlier `PUT` has just
changed. Pointers are addresses and `NULL` is `0`. The two search loops carry
fuel; `none` means that a loop ran out of it.
-/

namespace CompOrg.Malloc

open Memory

def WSIZE : Nat := 4
def DSIZE : Nat := 8
def CHUNKSIZE : Nat := 2 ^ 12

/-- `MAX(x, y)` -/
def maxSize (x y : Nat) : Nat := if x > y then x else y

/-! ## Tags -/

def pack (size alloc : Nat) : Nat := size ||| alloc

def get (m : Memory) (p : Nat) : Nat := readWord m p

def put (m : Memory) (p val : Nat) : Memory := writeWord m p val

/-- `GET(p) & ~0x7` on an `unsigned int`. -/
def getSize (m : Memory) (p : Nat) : Nat := get m p &&& 0xFFFFFFF8

def getAlloc (m : Memory) (p : Nat) : Nat := get m p &&& 0x1

def hdrp (bp : Nat) : Nat := bp - WSIZE

def ftrp (m : Memory) (bp : Nat) : Nat := bp + getSize m (hdrp bp) - DSIZE

def nextBlkp (m : Memory) (bp : Nat) : Nat := bp + getSize m (bp - WSIZE)

def prevBlkp (m : Memory) (bp : Nat) : Nat := bp - getSize m (bp - DSIZE)

/-! ## Boundary tag coalescing -/

/-- The statements after the case distinction: the cursor must not point into
the block that was just coalesced. -/
def settleCursor (h : Heap) (bp : Nat) : Heap × Nat :=
  if h.nextFitPointer > bp ∧ h.nextFitPointer < nextBlkp h.mem bp then
    ({ h with nextFitPointer := bp }, bp)
  else (h, bp)

def coalesce (h : Heap) (bp : Nat) : Heap × Nat :=
  let prevAlloc := getAlloc h.mem (ftrp h.mem (prevBlkp h.mem bp))
  let nextAlloc := getAlloc h.mem (hdrp (nextBlkp h.mem bp))
  let size := getSize h.mem (hdrp bp)
  if prevAlloc ≠ 0 ∧ nextAlloc ≠ 0 then (h, bp)
  else if prevAlloc ≠ 0 ∧ nextAlloc = 0 then
    let size := sizeT (size + getSize h.mem (hdrp (nextBlkp h.mem bp)))
    let m := put h.mem (hdrp bp) (pack size 0)
    let m := put m (ftrp m bp) (pack size 0)
    settleCursor { h with mem := m } bp
  else if prevAlloc = 0 ∧ nextAlloc ≠ 0 then
    let size := sizeT (size + getSize h.mem (hdrp (prevBlkp h.mem bp)))
    let m := put h.mem (ftrp h.mem bp) (pack size 0)
    let m := put m (hdrp (prevBlkp m bp)) (pack size 0)
    settleCursor { h with mem := m } (prevBlkp m bp)
  else
    let size := sizeT (size + (getSize h.mem (hdrp (prevBlkp h.mem bp)) +
      getSize h.mem (ftrp h.mem (nextBlkp h.mem bp))))
    let m := put h.mem (hdrp (prevBlkp h.mem bp)) (pack size 0)
    let m := put m (ftrp m (nextBlkp m bp)) (pack size 0)
    settleCursor { h with mem := m } (prevBlkp m bp)

/-! ## Growing the heap -/

def extendHeap (h : Heap) (words : Nat) : Heap × Nat :=
  let size := if words % 2 ≠ 0 then sizeT ((words + 1) * WSIZE) else sizeT (words * WSIZE)
  match memSbrk h (toInt size) with
  | (h, none) => (h, 0)
  | (h, some bp) =>
      let m := put h.mem (hdrp bp) (pack size 0)
      let m := put m (ftrp m bp) (pack size 0)
      let m := put m (hdrp (nextBlkp m bp)) (pack 0 1)
      coalesce { h with mem := m } bp

/-- On failure `heap_listp` has already been assigned `(void *)-1`. -/
def mmInit (h : Heap) : Heap × Int :=
  match memSbrk h (toInt (4 * WSIZE)) with
  | (h, none) => ({ h with heapListp := 2 ^ 32 - 1 }, -1)
  | (h, some p) =>
      let m := put h.mem p 0
      let m := put m (p + 1 * WSIZE) (pack DSIZE 1)
      let m := put m (p + 2 * WSIZE) (pack DSIZE 1)
      let m := put m (p + 3 * WSIZE) (pack 0 1)
      let p := p + 2 * WSIZE
      let h := { h with mem := m, heapListp := p, nextFitPointer := p }
      let (h, bp) := extendHeap h (CHUNKSIZE / WSIZE)
      if bp = 0 then (h, -1) else (h, 0)

/-- `if (heap_listp == 0) mm_init();` -/
def ensureInit (h : Heap) : Heap := if h.heapListp = 0 then (mmInit h).1 else h

/-! ## Placement -/

def place (h : Heap) (bp asize : Nat) : Heap :=
  let csize := getSize h.mem (hdrp bp)
  if sizeT (csize + 2 ^ 32 - asize) ≥ 2 * DSIZE then
    let m := put h.mem (hdrp bp) (pack asize 1)
    let m := put m (ftrp m bp) (pack asize 1)
    let bp := nextBlkp m bp
    let m := put m (hdrp bp) (pack (sizeT (csize + 2 ^ 32 - asize)) 0)
    let m := put m (ftrp m bp) (pack (sizeT (csize + 2 ^ 32 - asize)) 0)
    { h with mem := m }
  else
    let m := put h.mem (hdrp bp) (pack csize 1)
    let m := put m (ftrp m bp) (pack csize 1)
    { h with mem := m }

/-- First loop of `find_fit`: from the cursor to the end of the list. The result
`0` means that it left the loop without returning. -/
def findFitToEnd (asize : Nat) : Nat → Heap → Option (Heap × Nat)
  | 0, _ => none
  | fuel + 1, h =>
      let p := h.nextFitPointer
      if getSize h.mem (hdrp p) > 0 then
        if getAlloc h.mem (hdrp p) = 0 ∧ asize ≤ getSize h.mem (hdrp p) then some (h, p)
        else findFitToEnd asize fuel { h with nextFitPointer := nextBlkp h.mem p }
      else some (h, 0)

/-- Second loop of `find_fit`: from the start of the list to the old cursor. -/
def findFitToOld (asize old : Nat) : Nat → Heap → Option (Heap × Nat)
  | 0, _ => none
  | fuel + 1, h =>
      let p := h.nextFitPointer
      if p < old then
        if getAlloc h.mem (hdrp p) = 0 ∧ asize ≤ getSize h.mem (hdrp p) then some (h, p)
        else findFitToOld asize old fuel { h with nextFitPointer := nextBlkp h.mem p }
      else some (h, 0)

/-- Every iteration moves the cursor up, so the break bounds both loops. -/
def findFit (h : Heap) (asize : Nat) : Option (Heap × Nat) :=
  let old := h.nextFitPointer
  match findFitToEnd asize h.memBrk h with
  | none => none
  | some (h, p) =>
      if p ≠ 0 then some (h, p)
      else findFitToOld asize old h.memBrk { h with nextFitPointer := h.heapListp }

/-! ## The interface -/

def adjustedSize (size : Nat) : Nat :=
  if size ≤ DSIZE then 2 * DSIZE
  else sizeT (DSIZE * (sizeT (size + DSIZE + (DSIZE - 1)) / DSIZE))

def mmMalloc (h : Heap) (size : Nat) : Option (Heap × Nat) :=
  let h := ensureInit h
  if size = 0 then some (h, 0)
  else
    let asize := adjustedSize size
    match findFit h asize with
    | none => none
    | some (h, bp) =>
        if bp ≠ 0 then some (place h bp asize, bp)
        else
          let extendsize := maxSize asize CHUNKSIZE
          let (h, bp) := extendHeap h (extendsize / WSIZE)
          if bp = 0 then some (h, 0) else some (place h bp asize, bp)

def mmFree (h : Heap) (bp : Nat) : Heap :=
  if bp = 0 then h
  else
    let size := getSize h.mem (hdrp bp)
    let h := ensureInit h
    let m := put h.mem (hdrp bp) (pack size 0)
    let m := put m (ftrp m bp) (pack size 0)
    (coalesce { h with mem := m } bp).1

/-- The third argument of `memcpy`: the size of the old block counts the tags, not only the
payload. -/
def copyLength (h : Heap) (ptr size : Nat) : Nat :=
  let oldsize := getSize h.mem (hdrp ptr)
  if size < oldsize then size else oldsize

def reallocCopy (h : Heap) (newptr ptr size : Nat) : Heap :=
  { h with mem := copyBytes h.mem newptr ptr (copyLength h ptr size) }

def mmRealloc (h : Heap) (ptr size : Nat) : Option (Heap × Nat) :=
  if size = 0 then some (mmFree h ptr, 0)
  else if ptr = 0 then mmMalloc h size
  else
    match mmMalloc h size with
    | none => none
    | some (h, newptr) =>
        if newptr = 0 then some (h, 0)
        else some (mmFree (reallocCopy h newptr ptr size) ptr, newptr)

end CompOrg.Malloc
