import CompOrg.Malloc.Entries

/-! # Runs with the same calls

What a client and the driver can observe of a heap, as offsets from its start: the
result of each call, the break, the cursor, and the size and allocated bit of every
block. Two runs with the same calls are compared through the pool, which knows
neither the heap start nor any byte of it.
-/

namespace CompOrg.Malloc

/-! ## Observations -/

/-- Size and allocated bit of each block that the macros visit, up to the epilogue. -/
def blockList (m : Memory) : Nat → Nat → List (Nat × Nat)
  | 0, _ => []
  | fuel + 1, bp =>
      if getSize m (hdrp bp) > 0 then
        (getSize m (hdrp bp), getAlloc m (hdrp bp)) :: blockList m fuel (nextBlkp m bp)
      else []

structure Observation where
  /-- `none` for `NULL` and for `mm_free`. -/
  result : Option Int
  brk : Int
  cursor : Int
  blocks : List (Nat × Nat)
  deriving DecidableEq

namespace Client

def observe (c : Client) (p : Nat) : Observation where
  result := if p = 0 then none else some ((p : Int) - c.heap.memStartBrk)
  brk := (c.heap.memBrk : Int) - c.heap.memStartBrk
  cursor := (c.heap.nextFitPointer : Int) - c.heap.memStartBrk
  blocks := blockList c.heap.mem c.heap.memBrk c.heap.heapListp

/-- What is observed after each call of a run. -/
def responses : Client → List Event → Option (List Observation)
  | _, [] => some []
  | c, .call call :: es =>
      (c.invoke call).bind fun (c', p) =>
        (responses c' es).map fun os => c'.observe p :: os
  | c, .write k i v :: es => (c.write k i v).bind fun c' => responses c' es

end Client

namespace Pool

def observe (b : Pool) (r : Option Nat) : Observation where
  result := r.map Int.ofNat
  brk := b.next.brk
  cursor := b.next.cursor
  blocks := (8, 1) :: b.next.blocks.map fun d => (d.size, if d.alloc then 1 else 0)

def responses : Pool → List Call → List Observation
  | _, [] => []
  | b, call :: cs => (b.invoke call).1.observe (b.invoke call).2 :: responses (b.invoke call).1 cs

end Pool

/-! ## The pool sees the same -/

section Observe

/-- The same walk as for the entries, without the addresses. -/
theorem blockList_eq (m : Memory) (fuel bp : Nat) :
    blockList m fuel bp = (entriesFrom m fuel bp).map fun e => (e.size, e.alloc) := by
  induction fuel generalizing bp with
  | zero => rfl
  | succ fuel ih =>
      rw [blockList, entriesFrom]
      split
      · rw [List.map_cons, ih]
      · rfl

theorem map_view (p : Nat) (bs : List Block) :
    ((view p bs).map fun e => (e.size, e.alloc)) =
      bs.map fun d => (d.size, if d.alloc then 1 else 0) := by
  induction bs generalizing p with
  | nil => rfl
  | cons b bs ih =>
      rw [view_cons, List.map_cons, List.map_cons, ih]
      rfl

theorem blockList_of_represents {h : Heap} {a : NextFit} (R : Represents h a) :
    blockList h.mem h.memBrk h.heapListp =
      (8, 1) :: a.blocks.map fun d => (d.size, if d.alloc then 1 else 0) := by
  have hentries : entriesFrom h.mem h.memBrk h.heapListp = _ := R.entries_eq
  rw [blockList_eq, hentries, List.map_cons, map_view]
  rfl

end Observe

theorem observe_eq {c : Client} {b : Pool} (M : Simulates c b) (r : Option Nat)
    (hr : ∀ o, r = some o → ∃ n, b.next.Alloc o n) :
    c.observe (pointer c.heap.memStartBrk r) = b.observe r := by
  have hresult : (if pointer c.heap.memStartBrk r = 0 then none
      else some ((pointer c.heap.memStartBrk r : Int) - c.heap.memStartBrk)) =
        r.map Int.ofNat := by
    cases r with
    | none => rfl
    | some o =>
        obtain ⟨n, hn⟩ := hr o rfl
        rw [if_neg (by exact address_ne_zero _ hn), pointer, Option.map_some, Int.natCast_add,
          add_sub_cancel_left, Int.ofNat_eq_natCast]
  have hbrk : (c.heap.memBrk : Int) - c.heap.memStartBrk = b.next.brk := by
    rw [M.heap.layout.brk, NextFit.brk]
    omega
  have hcursor : (c.heap.nextFitPointer : Int) - c.heap.memStartBrk = b.next.cursor := by
    rw [M.heap.cursor, Int.natCast_add, add_sub_cancel_left]
  rw [Client.observe, Pool.observe, hresult, hbrk, hcursor, blockList_of_represents M.heap]

/-- The offset that a call returns is the start of an allocated block. -/
theorem Pool.result_alloc {b : Pool} (h : b.Valid) {call : Call} {o : Nat}
    (hr : (b.invoke call).2 = some o) : ∃ n, (b.invoke call).1.next.Alloc o n := by
  have hv := invoke_valid h call
  suffices hmem : ∃ s, (o, s) ∈ (b.invoke call).1.live by
    obtain ⟨s, hs⟩ := hmem
    obtain ⟨n, hn, -⟩ := hv.roomy o s hs
    exact ⟨n, hn⟩
  cases call with
  | malloc size =>
      rw [Pool.invoke] at hr ⊢
      rcases hm : b.next.malloc size with ⟨a, _ | p⟩
      · simp [hm] at hr
      · simp only [hm, Option.some.injEq] at hr ⊢
        exact ⟨size, by simp [hr]⟩
  | free k =>
      rw [Pool.invoke] at hr
      rcases hk : b.live[k]? with _ | ⟨p, s⟩ <;> simp [hk] at hr
  | realloc k size =>
      rw [Pool.invoke] at hr ⊢
      rcases hk : b.live[k]? with _ | ⟨p, s⟩
      · simp [hk] at hr
      · rcases hm : b.next.realloc p size with ⟨a, _ | q⟩
        · simp [hk, hm] at hr
        · simp only [hk, hm, Option.some.injEq] at hr ⊢
          exact ⟨size, hr ▸ List.mem_set (List.getElem?_eq_some_iff.mp hk).1 _⟩

/-! ## Runs -/

/-- A run of a client shows what the pool shows for its calls. -/
theorem responses_eq {c : Client} {b : Pool} {es : List Event} (M : Simulates c b)
    (hvalid : allocator.Meets Client.Valid c es) :
    c.responses es = some (b.responses (calls es)) := by
  induction es generalizing c b with
  | nil => rfl
  | cons e es ih =>
      obtain ⟨he, hrest⟩ := hvalid
      cases e with
      | call call =>
          obtain ⟨c', hc, M', hstart, -⟩ := invoke_refines M (M.length_eq ▸ he : call.Valid _)
          have hstep : allocator.step c (.call call) = some c' := by
            simp [allocator, Client.step, hc]
          have hobs := observe_eq M' _ fun o => Pool.result_alloc M.valid
          rw [hstart] at hobs
          simp only [Client.responses, hc, Option.bind_some, ih M' (hrest c' hstep), hobs,
            Option.map_some]
          rfl
      | write k i v =>
          obtain ⟨p, size, hget, hi⟩ := he
          obtain ⟨c', hc, M', -⟩ := write_refines M v hget hi
          rw [Client.responses, hc, Option.bind_some]
          exact ih M' (hrest c' hc)

/-- Two clients over any two stale heaps that issue the same calls, whatever they
write into their payloads, observe the same after every call. -/
theorem responses_deterministic {c d : Client} {es fs : List Event}
    (hc : allocator.init c) (hd : allocator.init d)
    (hes : allocator.Meets Client.Valid c es) (hfs : allocator.Meets Client.Valid d fs)
    (hcalls : calls es = calls fs) :
    ∃ os, c.responses es = some os ∧ d.responses fs = some os :=
  ⟨_, responses_eq (init_simulates hc) hes, hcalls ▸ responses_eq (init_simulates hd) hfs⟩

/-- A client at another address, over zero bytes, and with other writes. -/
def otherSample : Client := ⟨(mmInit (memResetBrk (memInit (fun _ => 0) 4096 7 9))).1, []⟩

def otherRun : List Event :=
  [.call (.malloc 10), .call (.malloc 5000), .write 1 4999 17, .write 0 0 1, .call (.malloc 8),
    .call (.realloc 0 30), .call (.free 1)]

theorem sampleRun_deterministic :
    ∃ os, sample.responses sampleRun = some os ∧ otherSample.responses otherRun = some os :=
  responses_deterministic sample_init
    ⟨memInit (fun _ => 0) 4096 7 9, rfl, rfl, by decide,
      (mmInit_represents rfl rfl (by decide)).1, rfl⟩
    (by decide +kernel) (by decide +kernel) rfl

end CompOrg.Malloc
