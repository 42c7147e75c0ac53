import CompOrg.Bank.Handshake

/-! # The queue and its memory

`main` allocates room for 100000 customers, the generator counts the queue as full at
10000, and the branch that should enlarge it asks for 1000. So everything is in its
place while the queue does not count as full, provided that the tellers stop in front
of the end of the memory.
-/

namespace CompOrg.Bank

variable {s s' : State}

/-- The index that a step reads or writes lies in the memory behind the pointer. -/
def Accesses (s : State) : Event → Prop
  | .lock _ => s.customersServiced < s.allocated
  | .arrive _ => s.customerNumber < s.queueLength → s.customerNumber - 1 < s.allocated
  | _ => True

/-- After `n` arrivals all of them are in the queue, which is within the memory. -/
structure Stored (s : State) (n : Nat) : Prop where
  capacity : s.queueLength ≤ s.allocated
  entry : ∀ k, 1 ≤ k → k ≤ n → k - 1 < s.allocated ∧ s.queue (k - 1) = k

/-- The runs with at most `n` arrivals, where `realloc` succeeds. -/
def GrowsSafely (s : State) (n : Nat) : Prop :=
  ∀ es t, arrivals es ≤ n → .arrive false ∉ es → bank.run s es = some t →
    bank.Meets Accesses s es ∧ Stored t (arrivals es)

/-! ## While the queue does not count as full -/

/-- The tellers stop at the entry `i`, behind the customers. -/
structure Roomy (i : Nat) (s : State) : Prop where
  numbered : 1 ≤ s.customerNumber
  allocated : s.allocated = 100000
  length : s.queueLength = 10000
  stored : ∀ k, 1 ≤ k → k < s.customerNumber → s.queue (k - 1) = k
  stop : s.tellers = [] ∨ s.queue i ≤ 0 ∧ s.customersServiced ≤ i
  bound : i < 100000

/-- An arrival is one of the first `n`. -/
def Few (n : Nat) (s : State) (e : Event) : Prop := ∀ r, e = .arrive r → s.customerNumber ≤ n

theorem step_roomy {i n : Nat} {e : Event} (hn : n < 10000) (hi : n ≤ i) (h : Roomy i s)
    (he : Few n s e) (hs : s.step e = some s') : Accesses s e ∧ Roomy i s' := by
  have hbound := h.bound
  have hallocated := h.allocated
  have hnum := h.numbered
  cases step_moves hs with
  | start k =>
      exact ⟨trivial, h.numbered, h.allocated, h.length, h.stored,
        h.stop.imp setTeller_nil fun hstop => ⟨hstop.1, Nat.zero_le i⟩, h.bound⟩
  | check | wake =>
      exact ⟨trivial, h.numbered, h.allocated, h.length, h.stored,
        h.stop.imp_left setTeller_nil, h.bound⟩
  | finish => exact ⟨trivial, h.numbered, h.allocated, h.length, h.stored, h.stop, h.bound⟩
  | idle k =>
      have hstop := h.stop.resolve_left (lock_tellers hs)
      refine ⟨?_, h.numbered, h.allocated, h.length, h.stored, h.stop.imp_left setTeller_nil,
        h.bound⟩
      simp only [Accesses]
      omega
  | take k hq =>
      have hstop := h.stop.resolve_left (lock_tellers hs)
      have hlt : s.customersServiced < i := by
        by_contra hge
        obtain rfl : s.customersServiced = i := by omega
        omega
      refine ⟨?_, h.numbered, h.allocated, h.length, h.stored, Or.inr ⟨hstop.1, hlt⟩, h.bound⟩
      simp only [Accesses]
      omega
  | arrive r hroom =>
      have hfew := he r rfl
      refine ⟨fun _ => by omega, Nat.le_add_left 1 _, h.allocated, h.length, ?_, ?_, h.bound⟩
      · intro k hpos hlt
        dsimp only at hlt ⊢
        rw [Function.update_apply]
        split
        · omega
        · exact h.stored k hpos (by omega)
      · refine h.stop.imp_right fun hstop => ⟨?_, hstop.2⟩
        dsimp only
        rw [Function.update_of_ne (by omega)]
        exact hstop.1
  | enlarge r hfull =>
      have hfew := he r rfl
      have hlength := h.length
      omega

/-- The customer number counts the arrivals of a run, as long as there are few. -/
theorem run_few {n : Nat} {es : List Event} (hrun : bank.run s es = some s')
    (hn : n < s.queueLength) (hfew : s.customerNumber + arrivals es ≤ n + 1) :
    bank.Meets (Few n) s es ∧ s'.customerNumber = s.customerNumber + arrivals es := by
  apply run_generator _ hrun hn hfew
  rintro m _ t - - hle r rfl
  have hone : (Event.arrive r).arrivals = 1 := rfl
  omega

theorem growsSafely_of_stop {n i : Nat} (hinit : bank.init s) (hn : n < 10000) (hi : n ≤ i)
    (hbound : i < 100000) (hstop : s.tellers = [] ∨ s.queue i ≤ 0) : GrowsSafely s n := by
  intro es t hfew _ hrun
  obtain ⟨-, hallocated, -, hserviced, hnumber, hlength, -, -⟩ := hinit
  have hroomy : Roomy i s := by
    refine ⟨by omega, hallocated, hlength, fun k _ _ => by omega, ?_, hbound⟩
    exact hstop.imp_right fun hq => ⟨hq, by omega⟩
  have hroom : n < s.queueLength := by omega
  obtain ⟨hmeets, hcount⟩ := run_few hrun hroom (by omega)
  have hstep : ∀ s e t, Roomy i s → Few n s e → bank.step s e = some t →
      Accesses s e ∧ Roomy i t := fun _ _ _ h he hs => step_roomy hn hi h he hs
  refine ⟨bank.meets_of_invariant hstep hroomy hmeets hrun, ?_⟩
  have ht := bank.run_invariant (fun s e t hs hok hst => (hstep s e t hs hok hst).2) hroomy
    hmeets hrun
  have htallocated := ht.allocated
  have htlength := ht.length
  refine ⟨by omega, fun k hpos hk => ⟨by omega, ht.stored k hpos (by omega)⟩⟩

/-! ## The bounds that are reached -/

theorem run_enlarge {s : State} (hinit : bank.init s) :
    ∃ t, bank.run s (List.replicate 10000 (.arrive true)) = some t ∧ t.queueLength = 11000 ∧
      t.allocated = 1000 ∧ t.generated = 9999 := by
  obtain ⟨-, -, hend, -, hnumber, hlength, -, -⟩ := hinit
  obtain ⟨queue, hrun, -⟩ := run_arrivals (s := s) (m := 9999) hend (by omega) (by omega)
  have hsplit : List.replicate 10000 (Event.arrive true) =
      List.replicate 9999 (.arrive true) ++ [.arrive true] := List.replicate_succ'
  rw [hsplit, System.run_append, hrun]
  simp [bank, State.step, State.arriveStep, State.generated, hend, hnumber, hlength]

theorem lock_accesses {rest : List Teller} (hend : s.endSimulation = false)
    (htellers : s.tellers = .looping :: rest) :
    (bank.run s [.check 0, .lock 0]).isSome = true ∧
      (bank.Meets Accesses s [.check 0, .lock 0] → s.customersServiced < s.allocated) := by
  have hcheck : bank.step s (.check 0) = some (s.setTeller 0 .locking) := by
    simp [bank, State.step, State.checkStep, htellers, hend]
  constructor
  · rw [System.run_cons, hcheck, Option.bind_some, System.run_cons]
    have hlocking : (s.setTeller 0 .locking).tellers[0]? = some .locking := by
      simp [State.setTeller, htellers]
    change ((State.lockStep _ 0).bind _).isSome = true
    rw [State.lockStep, if_pos hlocking]
    split <;> rfl
  · intro h
    exact ((bank.meets_cons_of_step hcheck).mp h).2.1

theorem arrive_notMem_overtaking (k n m : Nat) : .arrive false ∉ overtaking k n m := by
  intro hmem
  rcases List.mem_append.mp hmem with hmem | hmem
  · obtain ⟨i, -, heq⟩ := List.mem_map.mp hmem
    cases heq
  · rcases List.mem_append.mp hmem with hmem | hmem
    · cases List.eq_of_mem_replicate hmem
    · have := mem_services hmem
      simp [service] at this

/-- A teller that has served whatever the memory holds looks behind its end. -/
theorem not_growsSafely_of_positive {n : Nat} (hinit : bank.init s) (hn : n < 10000)
    (hne : s.tellers ≠ []) (hq : ∀ i, n ≤ i → i < 100000 → 0 < s.queue i) :
    ¬ GrowsSafely s n := by
  intro h
  obtain ⟨queue, tellers, taken, hrun⟩ := run_overtaking hinit hne hn hq
  obtain ⟨-, hallocated, hend, -⟩ := hinit
  obtain ⟨hlook, hbehind⟩ := lock_accesses (s := { s with
    queue := queue, customerNumber := 1 + n, customersServiced := 100000
    tellers := .looping :: tellers, taken := taken }) hend rfl
  obtain ⟨t, ht⟩ := Option.isSome_iff_exists.mp hlook
  have hfew : arrivals (overtaking s.tellers.length n 100000 ++ [.check 0, .lock 0]) ≤ n := by
    rw [arrivals_append, arrivals_overtaking]
    exact Nat.le_refl n
  have hreal : .arrive false ∉ overtaking s.tellers.length n 100000 ++ [.check 0, .lock 0] := by
    intro hmem
    rcases List.mem_append.mp hmem with hmem | hmem
    · exact arrive_notMem_overtaking _ _ _ hmem
    · simp at hmem
  have hmeets := (h _ t hfew hreal (by
    rw [System.run_append, hrun, Option.bind_some]
    exact ht)).1
  have hlast := hbehind ((bank.meets_append _ hrun).mp hmeets).2
  simp only [hallocated] at hlast
  exact Nat.lt_irrefl _ hlast

/-- The queue keeps everybody, and its accesses stay in the memory, only up to 9999
arrivals, and only if there are no tellers or some entry stops them. -/
theorem growsSafely_iff (hinit : bank.init s) (n : Nat) :
    GrowsSafely s n ↔
      n < 10000 ∧ (s.tellers = [] ∨ ∃ i, n ≤ i ∧ i < 100000 ∧ s.queue i ≤ 0) := by
  constructor
  · intro h
    have hn : n < 10000 := by
      by_contra hge
      obtain ⟨t, hrun, hlength, hallocated, -⟩ := run_enlarge hinit
      have hfew : arrivals (List.replicate 10000 (.arrive true)) ≤ n := by
        rw [arrivals_replicate]
        omega
      have hsafe := h _ t hfew (fun hmem => by cases List.eq_of_mem_replicate hmem) hrun
      have := hsafe.2.capacity
      omega
    refine ⟨hn, Or.elim (Classical.em (s.tellers = [])) Or.inl fun hne => Or.inr ?_⟩
    by_contra hnone
    refine not_growsSafely_of_positive hinit hn hne (fun i hi hlt => ?_) h
    by_contra hq
    exact hnone ⟨i, hi, hlt, by omega⟩
  · rintro ⟨hn, hnone | ⟨i, hi, hbound, hq⟩⟩
    · exact growsSafely_of_stop hinit hn (Nat.le_of_lt_succ (Nat.lt_of_lt_of_le hn
        (by decide : 10000 ≤ 99999 + 1))) (by decide) (Or.inl hnone)
    · exact growsSafely_of_stop hinit hn hi hbound (Or.inr hq)

theorem twoTellers_growsSafely_iff :
    GrowsSafely twoTellers 3 ↔
      3 < 10000 ∧ (twoTellers.tellers = [] ∨ ∃ i, 3 ≤ i ∧ i < 100000 ∧ twoTellers.queue i ≤ 0) :=
  growsSafely_iff twoTellers_init 3

/-- The ten thousandth arrival shrinks the memory, counts on more of it, and is lost. -/
theorem exists_run_shrinking :
    bank.init twoTellers ∧
      ∃ t, bank.run twoTellers (List.replicate 10000 (.arrive true)) = some t ∧
        t.queueLength = 11000 ∧ t.allocated = 1000 ∧ t.generated = 9999 :=
  ⟨twoTellers_init, run_enlarge twoTellers_init⟩

end CompOrg.Bank
