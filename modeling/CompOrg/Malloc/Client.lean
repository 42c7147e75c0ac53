import CompOrg.Lib.TransitionSystem
import CompOrg.Malloc.Interface
import Mathlib.Data.List.InsertIdx
import Mathlib.Data.List.Perm.Basic
import Mathlib.Data.List.Perm.Lattice

/-! # Clients of the allocator

A client holds the pointers it was given, with the sizes it asked for, and passes
only such pointers back. Between its calls it may write any byte it requested. The
same calls on next fit, with offsets for pointers, give the pool that every run of
a client simulates.
-/

namespace CompOrg.Malloc

/-! ## Calls and runs -/

/-- The client names its live pointers by their place in the list it keeps. -/
inductive Call
  | malloc (size : Nat)
  | free (k : Nat)
  | realloc (k size : Nat)
  deriving DecidableEq

inductive Event
  | call (c : Call)
  | write (k i : Nat) (v : UInt8)

/-- Only live pointers are passed, and no request overflows when it is rounded up. -/
def Call.Valid (held : Nat) : Call → Prop
  | .malloc size => size + 15 < 2 ^ 32
  | .free k => k < held
  | .realloc k size => k < held ∧ size + 15 < 2 ^ 32

/-- The live pointer that a call works on. -/
def Call.operand (live : List (Nat × Nat)) : Call → Option Nat
  | .malloc _ => none
  | .free k => live[k]?.map Prod.fst
  | .realloc k _ => live[k]?.map Prod.fst

/-- The calls among the events of a run. -/
def calls (es : List Event) : List Call :=
  es.filterMap fun
    | .call c => some c
    | .write _ _ _ => none

structure Client where
  heap : Heap
  /-- Each live pointer with the size it was requested with. -/
  live : List (Nat × Nat)

namespace Client

/-- A call with its result, `0` for `mm_free`; no result when the index names no
live pointer or a search loop runs out of fuel. -/
def invoke (c : Client) : Call → Option (Client × Nat)
  | .malloc size =>
      (mmMalloc c.heap size).map fun (h, p) =>
        (⟨h, if p = 0 then c.live else c.live ++ [(p, size)]⟩, p)
  | .free k =>
      c.live[k]?.map fun (p, _) => (⟨mmFree c.heap p, c.live.eraseIdx k⟩, 0)
  | .realloc k size =>
      c.live[k]?.bind fun (old, _) =>
        (mmRealloc c.heap old size).map fun (h, p) =>
          (⟨h, if size = 0 then c.live.eraseIdx k
            else if p = 0 then c.live else c.live.set k (p, size)⟩, p)

def write (c : Client) (k i : Nat) (v : UInt8) : Option Client :=
  c.live[k]?.map fun (p, _) =>
    { c with heap := { c.heap with mem := Memory.writeByte c.heap.mem (p + i) v } }

def step (c : Client) : Event → Option Client
  | .call call => (c.invoke call).map Prod.fst
  | .write k i v => c.write k i v

/-- Writes stay inside the requested bytes. -/
def Valid (c : Client) : Event → Prop
  | .call call => call.Valid c.live.length
  | .write k i _ => ∃ p size, c.live[k]? = some (p, size) ∧ i < size

instance (c : Client) : ∀ e, Decidable (c.Valid e)
  | .call (.malloc size) => inferInstanceAs (Decidable (size + 15 < 2 ^ 32))
  | .call (.free k) => inferInstanceAs (Decidable (k < c.live.length))
  | .call (.realloc k size) =>
      inferInstanceAs (Decidable (k < c.live.length ∧ size + 15 < 2 ^ 32))
  | .write k i _ =>
      match h : c.live[k]? with
      | none => isFalse fun ⟨_, _, hk, _⟩ => by simp [h] at hk
      | some (p, size) =>
          decidable_of_iff (i < size)
            ⟨fun hi => ⟨p, size, h, hi⟩, fun ⟨_, _, hk, hi⟩ => by
              rw [h] at hk
              cases hk
              exact hi⟩

end Client

/-- Runs start after `mm_init` on a reset break, over any memory and globals. -/
def allocator : System Client Event where
  init c := ∃ h : Heap, h.memStartBrk % 8 = 0 ∧ h.memMaxAddr = h.memStartBrk + MAX_HEAP ∧
    h.memMaxAddr < 2 ^ 32 ∧ (mmInit (memResetBrk h)).2 = 0 ∧
    c = ⟨(mmInit (memResetBrk h)).1, []⟩
  step := Client.step

/-! ## The pool -/

/-- Next fit together with the live offsets. -/
structure Pool where
  next : NextFit
  live : List (Nat × Nat)

namespace Pool

def invoke (b : Pool) : Call → Pool × Option Nat
  | .malloc size =>
      match b.next.malloc size with
      | (a, none) => (⟨a, b.live⟩, none)
      | (a, some o) => (⟨a, b.live ++ [(o, size)]⟩, some o)
  | .free k =>
      match b.live[k]? with
      | none => (b, none)
      | some (o, _) => (⟨b.next.free o, b.live.eraseIdx k⟩, none)
  | .realloc k size =>
      match b.live[k]? with
      | none => (b, none)
      | some (o, _) =>
          match b.next.realloc o size with
          | (a, none) => (⟨a, if size = 0 then b.live.eraseIdx k else b.live⟩, none)
          | (a, some p) => (⟨a, b.live.set k (p, size)⟩, some p)

/-- The allocated blocks are the live offsets, each with room for its request. -/
structure Valid (b : Pool) : Prop where
  next : b.next.Valid
  listed : ∀ o n, b.next.Alloc o n → o ∈ b.live.map Prod.fst
  roomy : ∀ o size, (o, size) ∈ b.live → ∃ n, b.next.Alloc o n ∧ size + 8 ≤ n
  distinct : (b.live.map Prod.fst).Nodup

def initial : Pool := ⟨NextFit.initial, []⟩

theorem initial_valid : initial.Valid where
  next := NextFit.initial_valid
  listed o n h := by
    obtain ⟨b, hb, ha, -⟩ := h
    rcases hb with ⟨-, rfl⟩ | hb
    · simp [Block.first] at ha
    · exact hb.elim
  roomy o size h := by simp [initial] at h
  distinct := List.nodup_nil

variable {b : Pool} {a : NextFit} {live : List (Nat × Nat)} {o size k : Nat}

theorem Valid.perm {live' : List (Nat × Nat)} (h : Valid ⟨a, live⟩) (hp : live.Perm live') :
    Valid ⟨a, live'⟩ where
  next := h.next
  listed o n ho := (hp.map Prod.fst).mem_iff.mp (h.listed o n ho)
  roomy o size ho := h.roomy o size (hp.mem_iff.mpr ho)
  distinct := (hp.map Prod.fst).nodup_iff.mp h.distinct

theorem Valid.alloc_of_get (h : b.Valid) (hk : b.live[k]? = some (o, size)) :
    ∃ n, b.next.Alloc o n ∧ size + 8 ≤ n :=
  h.roomy o size (List.mem_of_getElem? hk)

theorem Valid.served (h : b.Valid) (hs : NextFit.Served b.next a size o) :
    Valid ⟨a, b.live ++ [(o, size)]⟩ := by
  obtain ⟨n, hn, halloc⟩ := hs.alloc
  have hfresh : o ∉ b.live.map Prod.fst := by
    intro hmem
    obtain ⟨⟨p, s⟩, hp, rfl⟩ := List.mem_map.mp hmem
    obtain ⟨m, hm, -⟩ := h.roomy p s hp
    exact hs.fresh m hm
  refine ⟨hs.valid, ?_, ?_, ?_⟩
  · intro p m hp
    rw [List.map_append, List.mem_append]
    rcases (halloc p m).mp hp with hp | ⟨rfl, -⟩
    · exact Or.inl (h.listed p m hp)
    · exact Or.inr (List.mem_singleton_self _)
  · intro p s hp
    rcases List.mem_append.mp hp with hp | hp
    · obtain ⟨m, hm, hle⟩ := h.roomy p s hp
      exact ⟨m, (halloc p m).mpr (Or.inl hm), hle⟩
    · obtain ⟨rfl, rfl⟩ := Prod.mk.inj (List.mem_singleton.mp hp)
      exact ⟨n, (halloc p n).mpr (Or.inr ⟨rfl, rfl⟩), hn⟩
  · rw [List.map_append, List.map_singleton]
    exact (List.nodup_append_comm.mpr (List.nodup_cons.mpr ⟨hfresh, h.distinct⟩))

theorem Valid.freed (h : b.Valid) (hk : b.live[k]? = some (o, size)) :
    Valid ⟨b.next.free o, b.live.eraseIdx k⟩ := by
  obtain ⟨n, halloc, -⟩ := h.alloc_of_get hk
  obtain ⟨pre, d, post, hblocks, ho, -, -⟩ := halloc.cut
  have hfree := NextFit.alloc_free hblocks ho
  -- the list is the freed entry and the others, which lie elsewhere
  have hlt := (List.getElem?_eq_some_iff.mp hk).1
  have hperm : b.live.Perm ((o, size) :: b.live.eraseIdx k) := by
    have := List.getElem_cons_eraseIdx_perm hlt
    rw [(List.getElem?_eq_some_iff.mp hk).2] at this
    exact this.symm
  have hv : Valid ⟨b.next, (o, size) :: b.live.eraseIdx k⟩ := Valid.perm h hperm
  have hnodup := hv.distinct
  rw [List.map_cons, List.nodup_cons] at hnodup
  refine ⟨NextFit.free_valid h.next hblocks ho, ?_, ?_, hnodup.2⟩
  · intro p m hp
    obtain ⟨hp, hne⟩ := (hfree p m).mp hp
    exact (List.mem_cons.mp (hv.listed p m hp)).resolve_left hne
  · intro p s hp
    obtain ⟨m, hm, hle⟩ := hv.roomy p s (List.mem_cons_of_mem _ hp)
    refine ⟨m, (hfree p m).mpr ⟨hm, ?_⟩, hle⟩
    rintro rfl
    exact hnodup.1 (List.mem_map.mpr ⟨(p, s), hp, rfl⟩)

/-- A call keeps the allocated blocks and the live offsets in step. -/
theorem invoke_valid (h : b.Valid) (call : Call) : (b.invoke call).1.Valid := by
  cases call with
  | malloc size =>
      rw [invoke]
      rcases hm : b.next.malloc size with ⟨a, _ | o⟩
      · obtain rfl := NextFit.malloc_none hm
        exact h
      · exact h.served (NextFit.malloc_some h.next hm)
  | free k =>
      rw [invoke]
      rcases hk : b.live[k]? with _ | ⟨o, s⟩
      · exact h
      · exact h.freed hk
  | realloc k size =>
      rw [invoke]
      rcases hk : b.live[k]? with _ | ⟨o, s⟩
      · exact h
      · by_cases hz : size = 0
        · simp only [NextFit.realloc, hz, if_true]
          exact h.freed hk
        · rcases hm : b.next.malloc size with ⟨a, _ | p⟩
          · obtain rfl := NextFit.malloc_none hm
            simp only [NextFit.realloc, hm, hz, if_false]
            exact h
          · -- served first, then the old block freed
            have hs := h.served (NextFit.malloc_some h.next hm)
            have hlt := (List.getElem?_eq_some_iff.mp hk).1
            have hk' : (b.live ++ [(p, size)])[k]? = some (o, s) := by
              rw [List.getElem?_append_left hlt, hk]
            have hf := hs.freed hk'
            rw [List.eraseIdx_append_of_lt_length hlt] at hf
            simp only [NextFit.realloc, hm, hz, if_false]
            exact hf.perm (List.perm_append_singleton _ _ |>.trans
              (List.set_perm_cons_eraseIdx hlt _).symm)

end Pool

/-! ## Simulation -/

/-- The heap represents the pool and the live pointers are its offsets. -/
structure Simulates (c : Client) (b : Pool) : Prop where
  heap : Represents c.heap b.next
  live : c.live = b.live.map fun e => (c.heap.memStartBrk + e.1, e.2)
  valid : b.Valid

/-- The live blocks other than the operand of a call keep their bytes, from the
header to the footer. -/
def KeepsLive (start : Nat) (b : Pool) (call : Call) (m m' : Memory) : Prop :=
  ∀ p n, b.next.Alloc p n → call.operand b.live ≠ some p →
    ∀ x, start + p ≤ x + 4 → x + 4 < start + p + n → m' x = m x

section Simulation

variable {c : Client} {b : Pool}

theorem Simulates.length_eq (M : Simulates c b) : c.live.length = b.live.length := by
  rw [M.live, List.length_map]

theorem Simulates.get_eq (M : Simulates c b) (k : Nat) :
    c.live[k]? = b.live[k]?.map fun e => (c.heap.memStartBrk + e.1, e.2) := by
  rw [M.live, List.getElem?_map]

theorem address_ne_zero {a : NextFit} {o n : Nat} (start : Nat) (h : a.Alloc o n) :
    start + o ≠ 0 := by
  have := AllocAt.bounds h
  unfold firstOffset at this
  omega

theorem invoke_malloc {size : Nat} (M : Simulates c b) (hsize : size + 15 < 2 ^ 32) :
    ∃ c', c.invoke (.malloc size) =
        some (c', pointer c.heap.memStartBrk (b.invoke (.malloc size)).2) ∧
      Simulates c' (b.invoke (.malloc size)).1 ∧ c'.heap.memStartBrk = c.heap.memStartBrk ∧
      KeepsLive c.heap.memStartBrk b (.malloc size) c.heap.mem c'.heap.mem := by
  have hv := Pool.invoke_valid M.valid (.malloc size)
  rw [Pool.invoke] at hv ⊢
  rcases hm : b.next.malloc size with ⟨a, _ | o⟩
  · -- refused: `NULL` and the same heap
    simp only [hm] at hv ⊢
    obtain rfl := NextFit.malloc_none hm
    refine ⟨c, ?_, M, rfl, fun _ _ _ _ _ _ _ => rfl⟩
    rw [Client.invoke, mmMalloc_of_none M.heap hsize (by rw [hm])]
    rfl
  · simp only [hm] at hv ⊢
    obtain ⟨h', hcall, R, hstart, hkeep⟩ := mmMalloc_of_some M.heap hsize (by rw [hm])
    rw [hm] at R
    have hne : c.heap.memStartBrk + o ≠ 0 := by
      obtain ⟨n, hn, -⟩ := hv.roomy o size (List.mem_append_right _ (List.mem_singleton_self _))
      exact address_ne_zero _ hn
    refine ⟨⟨h', c.live ++ [(c.heap.memStartBrk + o, size)]⟩, ?_, ⟨R, ?_, hv⟩, hstart, ?_⟩
    · simp only [Client.invoke, hcall, Option.map_some, if_neg hne, pointer]
    · rw [List.map_append, hstart, M.live]
      rfl
    · exact fun p n hp _ => hkeep p n hp

theorem invoke_free {k : Nat} (M : Simulates c b) (hk : k < b.live.length) :
    ∃ c', c.invoke (.free k) =
        some (c', pointer c.heap.memStartBrk (b.invoke (.free k)).2) ∧
      Simulates c' (b.invoke (.free k)).1 ∧ c'.heap.memStartBrk = c.heap.memStartBrk ∧
      KeepsLive c.heap.memStartBrk b (.free k) c.heap.mem c'.heap.mem := by
  have hv := Pool.invoke_valid M.valid (.free k)
  obtain ⟨⟨o, s⟩, hget⟩ : ∃ e, b.live[k]? = some e := ⟨_, List.getElem?_eq_getElem hk⟩
  have hc := M.get_eq k
  rw [hget, Option.map_some] at hc
  obtain ⟨n, halloc, -⟩ := M.valid.alloc_of_get hget
  obtain ⟨R, hstart, hkeep⟩ := mmFree_refines M.heap halloc
  simp only [Pool.invoke, hget] at hv ⊢
  refine ⟨⟨mmFree c.heap (c.heap.memStartBrk + o), c.live.eraseIdx k⟩, ?_, ⟨R, ?_, hv⟩, hstart,
    ?_⟩
  · simp only [Client.invoke, hc, Option.map_some, pointer]
  · rw [hstart, M.live, List.eraseIdx_map]
  · intro p m hp hne
    refine hkeep p m hp fun heq => hne ?_
    simp [Call.operand, hget, heq]

theorem invoke_realloc {k size : Nat} (M : Simulates c b) (hk : k < b.live.length)
    (hsize : size + 15 < 2 ^ 32) :
    ∃ c', c.invoke (.realloc k size) =
        some (c', pointer c.heap.memStartBrk (b.invoke (.realloc k size)).2) ∧
      Simulates c' (b.invoke (.realloc k size)).1 ∧
      c'.heap.memStartBrk = c.heap.memStartBrk ∧
      KeepsLive c.heap.memStartBrk b (.realloc k size) c.heap.mem c'.heap.mem := by
  have hv := Pool.invoke_valid M.valid (.realloc k size)
  obtain ⟨⟨o, s⟩, hget⟩ : ∃ e, b.live[k]? = some e := ⟨_, List.getElem?_eq_getElem hk⟩
  have hc := M.get_eq k
  rw [hget, Option.map_some] at hc
  obtain ⟨n, halloc, -⟩ := M.valid.alloc_of_get hget
  obtain ⟨h', hcall, R, hstart, hkeep⟩ := mmRealloc_refines M.heap halloc hsize
  have hframe : KeepsLive c.heap.memStartBrk b (.realloc k size) c.heap.mem h'.mem := by
    intro p m hp hne
    refine hkeep p m hp fun heq => hne ?_
    simp [Call.operand, hget, heq]
  rcases hr : b.next.realloc o size with ⟨a, _ | p⟩
  · rw [hr] at hcall R
    simp only [Pool.invoke, hget, hr] at hv ⊢
    refine ⟨⟨h', if size = 0 then c.live.eraseIdx k else c.live⟩, ?_, ⟨R, ?_, hv⟩, hstart,
      hframe⟩
    · simp [Client.invoke, hc, hcall, pointer]
    · dsimp only
      rw [hstart, M.live, List.eraseIdx_map]
      split <;> rfl
  · rw [hr] at hcall R
    have hz : size ≠ 0 := by
      rintro rfl
      simp [NextFit.realloc] at hr
    simp only [Pool.invoke, hget, hr] at hv ⊢
    have hne : c.heap.memStartBrk + p ≠ 0 := by
      obtain ⟨m, hm, -⟩ := hv.roomy p size (List.mem_set hk (p, size))
      exact address_ne_zero _ hm
    refine ⟨⟨h', c.live.set k (c.heap.memStartBrk + p, size)⟩, ?_, ⟨R, ?_, hv⟩, hstart, hframe⟩
    · simp only [Client.invoke, hc, hcall, Option.bind_some, Option.map_some, pointer, if_neg hz,
        if_neg hne]
    · rw [hstart, M.live, List.map_set]

/-- Every valid call returns, with the result of the pool at the heap start. -/
theorem invoke_refines {call : Call} (M : Simulates c b) (hcall : call.Valid b.live.length) :
    ∃ c', c.invoke call = some (c', pointer c.heap.memStartBrk (b.invoke call).2) ∧
      Simulates c' (b.invoke call).1 ∧ c'.heap.memStartBrk = c.heap.memStartBrk ∧
      KeepsLive c.heap.memStartBrk b call c.heap.mem c'.heap.mem := by
  cases call with
  | malloc size => exact invoke_malloc M hcall
  | free k => exact invoke_free M hcall
  | realloc k size => exact invoke_realloc M hcall.1 hcall.2

/-- A client write lands in the payload of one live block. -/
theorem write_refines {k i p size : Nat} (M : Simulates c b) (v : UInt8)
    (hget : c.live[k]? = some (p, size)) (hi : i < size) :
    ∃ c', c.write k i v = some c' ∧ Simulates c' b ∧
      c'.heap.memStartBrk = c.heap.memStartBrk := by
  rw [M.get_eq, Option.map_eq_some_iff] at hget
  obtain ⟨⟨o, s⟩, hb, heq⟩ := hget
  obtain ⟨rfl, rfl⟩ := Prod.mk.inj heq
  obtain ⟨n, halloc, hn⟩ := M.valid.alloc_of_get hb
  have hsame := Memory.sameOutside_writeByte c.heap.mem (c.heap.memStartBrk + o + i) v
  have R := (represents_payload M.heap halloc (hsame.mono (by omega) (by omega))).1
  have hwrite : c.write k i v = some { c with heap := { c.heap with
      mem := Memory.writeByte c.heap.mem (c.heap.memStartBrk + o + i) v } } := by
    rw [Client.write, M.get_eq, hb]
    rfl
  exact ⟨_, hwrite, ⟨R, M.live, M.valid⟩, rfl⟩

end Simulation

/-! ## Runs -/

theorem init_simulates {c : Client} (h : allocator.init c) : Simulates c Pool.initial := by
  obtain ⟨h, halign, hmax, haddr, -, rfl⟩ := h
  exact ⟨(mmInit_represents halign hmax haddr).2.1, rfl, Pool.initial_valid⟩

section Pools

variable {P : Pool → Prop}

/-- Any event of a client takes a simulated state to a simulated state, and what
the calls preserve of the pool it preserves. -/
theorem step_pool (hstep : ∀ b call, b.Valid → P b → P (b.invoke call).1) {c : Client} {e : Event}
    (h : ∃ b, Simulates c b ∧ P b) (he : c.Valid e) :
    ∃ c', allocator.step c e = some c' ∧ ∃ b, Simulates c' b ∧ P b := by
  obtain ⟨b, M, hp⟩ := h
  cases e with
  | call call =>
      have hcall : call.Valid b.live.length := M.length_eq ▸ he
      obtain ⟨c', hc, M', -, -⟩ := invoke_refines M hcall
      exact ⟨c', by simp [allocator, Client.step, hc], _, M', hstep b call M.valid hp⟩
  | write k i v =>
      obtain ⟨p, size, hget, hi⟩ := he
      obtain ⟨c', hc, M', -⟩ := write_refines M v hget hi
      exact ⟨c', hc, b, M', hp⟩

/-- Every valid run goes through, to a state that simulates a pool with every
property that the calls preserve. -/
theorem run_pool (hinit : P Pool.initial)
    (hstep : ∀ b call, b.Valid → P b → P (b.invoke call).1) {c : Client} {es : List Event}
    (hc : allocator.init c) (hvalid : allocator.Meets Client.Valid c es) :
    ∃ c', allocator.run c es = some c' ∧ ∃ b, Simulates c' b ∧ P b :=
  allocator.run_total (fun _ _ => step_pool hstep) ⟨_, init_simulates hc, hinit⟩ hvalid

theorem reachable_pool (hinit : P Pool.initial)
    (hstep : ∀ b call, b.Valid → P b → P (b.invoke call).1) {c : Client}
    (hreach : allocator.ReachableWhere Client.Valid c) : ∃ b, Simulates c b ∧ P b := by
  obtain ⟨s, es, hs, hmeets, hrun⟩ := hreach
  obtain ⟨c₁, hrun₁, hsim⟩ := run_pool hinit hstep hs hmeets
  obtain rfl := Option.some.inj (hrun.symm.trans hrun₁)
  exact hsim

end Pools

theorem run_simulates {c : Client} {es : List Event} (hinit : allocator.init c)
    (hvalid : allocator.Meets Client.Valid c es) :
    ∃ c', allocator.run c es = some c' ∧ ∃ b, Simulates c' b := by
  obtain ⟨c', hrun, b, M, -⟩ := run_pool (P := fun _ => True) trivial (fun _ _ _ h => h) hinit
    hvalid
  exact ⟨c', hrun, b, M⟩

theorem reachable_simulates {c : Client} (hreach : allocator.ReachableWhere Client.Valid c) :
    ∃ b, Simulates c b := by
  obtain ⟨b, M, -⟩ := reachable_pool (P := fun _ => True) trivial (fun _ _ _ h => h) hreach
  exact ⟨b, M⟩

end CompOrg.Malloc
