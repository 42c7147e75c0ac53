import CompOrg.Bank.Service

/-! # The handshake between the generator and the tellers

A teller takes the entry at the shared counter if it is positive, and nothing else
tells it that a customer was stored there. So the tellers keep behind the generator
as long as the entries that were not stored yet are not positive, which the `memset`
of `main` ensures for the first one only. Runs that overtake are put together from
start-ups, arrivals and services.
-/

namespace CompOrg.Bank

variable {s s' : State}

/-! ## Parts of a run -/

/-- The start-ups of all tellers. -/
def starts (n : Nat) : List Event := (List.range n).map .start

theorem set_looping (i j : Nat) :
    (List.replicate i Teller.looping ++ List.replicate (j + 1) Teller.created).set i .looping =
      List.replicate (i + 1) .looping ++ List.replicate j .created := by
  have hcreated : List.replicate (j + 1) Teller.created = .created :: List.replicate j .created :=
    List.replicate_succ
  have hlooping : List.replicate (i + 1) Teller.looping = List.replicate i .looping ++ [.looping] :=
    List.replicate_succ'
  rw [hcreated, hlooping, List.set_append_right _ _ (by simp)]
  simp

theorem run_starts_from {i j : Nat}
    (htellers : s.tellers = List.replicate i .looping ++ List.replicate j .created)
    (hserviced : s.customersServiced = 0) :
    bank.run s ((List.range' i j).map .start) =
      some { s with tellers := List.replicate (i + j) .looping } := by
  obtain ⟨queue, allocated, endSimulation, serviced, number, length, tellers, taken⟩ := s
  subst htellers hserviced
  induction j generalizing i with
  | zero => simp
  | succ j ih =>
      have hstep : bank.step
            ⟨queue, allocated, endSimulation, 0, number, length,
              List.replicate i .looping ++ List.replicate (j + 1) .created, taken⟩ (.start i) =
          some ⟨queue, allocated, endSimulation, 0, number, length,
            List.replicate (i + 1) .looping ++ List.replicate j .created, taken⟩ := by
        rw [← set_looping]
        exact if_pos (by simp)
      rw [List.range'_succ, List.map_cons, System.run_cons, hstep, Option.bind_some, ih]
      rw [Nat.add_right_comm, Nat.add_assoc]

theorem run_starts {n : Nat} (htellers : s.tellers = List.replicate n .created)
    (hserviced : s.customersServiced = 0) :
    bank.run s (starts n) = some { s with tellers := List.replicate n .looping } := by
  have h := run_starts_from (s := s) (i := 0) (j := n) (by simpa using htellers) hserviced
  rwa [Nat.zero_add, ← List.range_eq_range'] at h

theorem run_arrivals {m : Nat} (hend : s.endSimulation = false)
    (hroom : s.customerNumber + m ≤ s.queueLength) (hnum : 1 ≤ s.customerNumber) :
    ∃ queue, bank.run s (List.replicate m (.arrive true)) =
        some { s with queue := queue, customerNumber := s.customerNumber + m } ∧
      ∀ i, queue i =
        if s.generated ≤ i ∧ i < s.generated + m then (i : Int) + 1 else s.queue i := by
  induction m generalizing s with
  | zero => exact ⟨s.queue, rfl, fun i => by rw [if_neg (by omega)]⟩
  | succ m ih =>
      have hstep : bank.step s (.arrive true) = some { s with
          queue := Function.update s.queue (s.customerNumber - 1) s.customerNumber
          customerNumber := s.customerNumber + 1 } := by
        have hlt : s.queueLength > s.customerNumber := by omega
        simp [bank, State.step, State.arriveStep, hend, hlt]
      have hroom' : s.customerNumber + 1 + m ≤ s.queueLength := by omega
      obtain ⟨queue, hrun, hqueue⟩ := ih (s := { s with
          queue := Function.update s.queue (s.customerNumber - 1) s.customerNumber
          customerNumber := s.customerNumber + 1 }) hend hroom' (Nat.le_add_left 1 _)
      refine ⟨queue, ?_, fun i => ?_⟩
      · rw [List.replicate_succ, System.run_cons, hstep, Option.bind_some, hrun]
        simp only [Nat.add_assoc, Nat.add_comm 1 m]
      · rw [hqueue i]
        unfold State.generated
        dsimp only
        rw [Function.update_apply]
        split
        next =>
          split
          next => rfl
          next => omega
        next =>
          split
          next =>
            split
            next => omega
            next => omega
          next =>
            split
            next => omega
            next => rfl

/-- What the first teller does for one customer. -/
def service : List Event := [.check 0, .lock 0, .wake 0]

theorem run_service {rest : List Teller} (hend : s.endSimulation = false)
    (htellers : s.tellers = .looping :: rest) (hq : 0 < s.queue s.customersServiced) :
    bank.run s service = some { s with
      customersServiced := s.customersServiced + 1
      taken := s.taken ++ [s.customersServiced] } := by
  obtain ⟨queue, allocated, endSimulation, serviced, number, length, tellers, taken⟩ := s
  subst htellers hend
  dsimp only at hq
  simp [service, bank, State.step, State.checkStep, State.lockStep, State.wakeStep,
    State.setTeller, hq]

/-- As many customers as there are positive entries from the counter on. -/
theorem run_services {m : Nat} {rest : List Teller} (hend : s.endSimulation = false)
    (htellers : s.tellers = .looping :: rest)
    (hq : ∀ i, i < m → 0 < s.queue (s.customersServiced + i)) :
    ∃ taken, bank.run s (List.replicate m service).flatten = some { s with
      customersServiced := s.customersServiced + m, taken := taken } := by
  induction m generalizing s with
  | zero => exact ⟨s.taken, rfl⟩
  | succ m ih =>
      have hfirst := run_service hend htellers (hq 0 (by omega))
      obtain ⟨taken, hrun⟩ := ih (s := { s with
          customersServiced := s.customersServiced + 1
          taken := s.taken ++ [s.customersServiced] }) hend htellers fun i hi => by
        have := hq (i + 1) (by omega)
        simpa [Nat.add_assoc, Nat.add_comm 1 i] using this
      refine ⟨taken, ?_⟩
      rw [List.replicate_succ, List.flatten_cons, System.run_append, hfirst, Option.bind_some, hrun]
      simp only [Nat.add_assoc, Nat.add_comm 1 m]

/-! ## Keeping behind the generator -/

/-- Every teller starts before anything else happens, and none starts afterwards. -/
def StartsFirst (s : State) (es : List Event) : Prop :=
  ∃ first rest, es = first ++ rest ∧ (∀ e ∈ first, ∃ k, e = .start k) ∧
    (∀ k, k < s.tellers.length → .start k ∈ first) ∧ ∀ k, .start k ∉ rest

/-- In the runs with less than 10000 arrivals the tellers serve no customer too many. -/
def ServesGenerated (s : State) : Prop :=
  ∀ es t, StartsFirst s es → arrivals es < 10000 → bank.run s es = some t →
    t.customersServiced ≤ t.generated

/-- No teller takes an entry that was not stored. -/
structure Behind (s : State) : Prop where
  numbered : 1 ≤ s.customerNumber
  length : s.queueLength = 10000
  room : s.customerNumber ≤ 10000
  unset : s.tellers = [] ∨ ∀ i, s.generated ≤ i → i < 10000 → s.queue i ≤ 0
  serviced : s.customersServiced ≤ s.generated

theorem setTeller_nil {k : Nat} {c : Teller} (h : s.tellers = []) :
    (s.setTeller k c).tellers = [] := by
  simp [State.setTeller, h]

theorem lock_tellers {k : Nat} (hs : s.step (.lock k) = some s') : s.tellers ≠ [] := by
  intro h
  simp [State.step, State.lockStep, h] at hs

theorem step_behind {e : Event} (h : Behind s) (he : Enabled s e) (hs : s.step e = some s') :
    Behind s' := by
  cases step_moves hs with
  | start k => exact ⟨h.numbered, h.length, h.room, h.unset.imp_left setTeller_nil, Nat.zero_le _⟩
  | check | idle | wake =>
      exact ⟨h.numbered, h.length, h.room, h.unset.imp_left setTeller_nil, h.serviced⟩
  | finish => exact ⟨h.numbered, h.length, h.room, h.unset, h.serviced⟩
  | take k hq =>
      have hunset := h.unset.resolve_left (lock_tellers hs)
      have hlt : s.customersServiced < s.generated := by
        by_contra hge
        have := h.room
        have hnum := h.numbered
        have := hunset s.customersServiced (by omega) (by
          have := h.serviced
          unfold State.generated at this
          omega)
        omega
      exact ⟨h.numbered, h.length, h.room, h.unset.imp_left setTeller_nil, hlt⟩
  | arrive r hroom =>
      have hnum := h.numbered
      refine ⟨Nat.le_add_left 1 _, h.length, h.length ▸ hroom, h.unset.imp_right ?_, ?_⟩
      · intro hunset i hi hlt
        unfold State.generated at hunset hi
        dsimp only at hi ⊢
        rw [Function.update_of_ne (by omega)]
        exact hunset i (by omega) hlt
      · have := h.serviced
        unfold State.generated at this ⊢
        dsimp only
        omega
  | enlarge r hfull =>
      have := he.2 r rfl
      omega

/-! ## The condition on the memory -/

theorem arrivals_append (es fs : List Event) : arrivals (es ++ fs) = arrivals es + arrivals fs := by
  induction es with
  | nil => simp [arrivals]
  | cons e es ih => rw [List.cons_append, arrivals, arrivals, ih, Nat.add_assoc]

theorem arrivals_eq_zero {es : List Event} (h : ∀ e ∈ es, e.arrivals = 0) : arrivals es = 0 := by
  induction es with
  | nil => rfl
  | cons e es ih =>
      rw [arrivals, h e List.mem_cons_self, ih fun f hf => h f (List.mem_cons_of_mem e hf)]

theorem arrivals_replicate (n : Nat) : arrivals (List.replicate n (.arrive true)) = n := by
  induction n with
  | zero => rfl
  | succ n ih =>
      rw [List.replicate_succ, arrivals, ih]
      exact Nat.add_comm 1 n

/-- All tellers start, `n` customers arrive, and the first teller serves `m` times. -/
def overtaking (k n m : Nat) : List Event :=
  starts k ++ (List.replicate n (.arrive true) ++ (List.replicate m service).flatten)

theorem mem_services {m : Nat} {e : Event} (he : e ∈ (List.replicate m service).flatten) :
    e ∈ service := by
  obtain ⟨es, hes, he⟩ := List.mem_flatten.mp he
  exact List.eq_of_mem_replicate hes ▸ he

theorem arrivals_overtaking (k n m : Nat) : arrivals (overtaking k n m) = n := by
  have hstarts : arrivals (starts k) = 0 := by
    apply arrivals_eq_zero
    intro e he
    obtain ⟨i, -, rfl⟩ := List.mem_map.mp he
    rfl
  have hservices : arrivals (List.replicate m service).flatten = 0 := by
    apply arrivals_eq_zero
    intro e he
    have := mem_services he
    simp only [service, List.mem_cons, List.not_mem_nil, or_false] at this
    rcases this with rfl | rfl | rfl <;> rfl
  rw [overtaking, arrivals_append, arrivals_append, arrivals_replicate, hstarts, hservices]
  omega

theorem overtaking_startsFirst (n m : Nat) : StartsFirst s (overtaking s.tellers.length n m) := by
  refine ⟨starts s.tellers.length, _, rfl, ?_, ?_, ?_⟩
  · intro e he
    obtain ⟨i, -, rfl⟩ := List.mem_map.mp he
    exact ⟨i, rfl⟩
  · intro k hk
    exact List.mem_map.mpr ⟨k, List.mem_range.mpr hk, rfl⟩
  · intro k hmem
    rcases List.mem_append.mp hmem with hmem | hmem
    · cases List.eq_of_mem_replicate hmem
    · have := mem_services hmem
      simp [service] at this

/-- The first teller serves as many customers as there are positive entries, where the
first `n` entries are those of customers that have arrived. -/
theorem run_overtaking {n m : Nat} (hinit : bank.init s) (hne : s.tellers ≠ []) (hn : n < 10000)
    (hq : ∀ i, n ≤ i → i < m → 0 < s.queue i) :
    ∃ queue tellers taken, bank.run s (overtaking s.tellers.length n m) = some { s with
        queue := queue, customerNumber := 1 + n, customersServiced := m
        tellers := .looping :: tellers, taken := taken } := by
  obtain ⟨-, -, hend, hserviced, hnumber, hlength, hcreated, -⟩ := hinit
  have htellers := List.eq_replicate_iff.mpr ⟨rfl, hcreated⟩
  obtain ⟨queue, harrivals, hqueue⟩ := run_arrivals
    (s := { s with tellers := List.replicate s.tellers.length .looping }) (m := n) hend
    (by dsimp only; omega) (by dsimp only; omega)
  obtain ⟨k, hk⟩ := Nat.exists_eq_add_one_of_ne_zero fun h => hne (List.eq_nil_of_length_eq_zero h)
  obtain ⟨taken, hservices⟩ := run_services (s := { s with
      tellers := .looping :: List.replicate k .looping, queue := queue
      customerNumber := s.customerNumber + n }) (m := m) hend rfl (by
    intro i hi
    dsimp only
    rw [hserviced, Nat.zero_add, hqueue i]
    unfold State.generated
    dsimp only
    split
    · omega
    · exact hq i (by omega) hi)
  refine ⟨queue, List.replicate k .looping, taken, ?_⟩
  rw [overtaking, System.run_append, run_starts htellers hserviced, Option.bind_some,
    System.run_append, harrivals, Option.bind_some, hk, List.replicate_succ, hservices]
  simp only [hserviced, hnumber, Nat.zero_add]

/-- The tellers serve generated customers only if there are no tellers, or if none of the
entries up to the ten thousandth happens to be positive. -/
theorem servesGenerated_iff (hinit : bank.init s) :
    ServesGenerated s ↔ s.tellers = [] ∨ ∀ n, 1 ≤ n → n < 10000 → s.queue n ≤ 0 := by
  constructor
  · intro h
    refine Or.elim (Classical.em (s.tellers = [])) Or.inl fun hne => Or.inr fun n hpos hn => ?_
    by_contra hq
    obtain ⟨queue, tellers, taken, hrun⟩ := run_overtaking (m := n + 1) hinit hne hn (by
      intro i hi hlt
      obtain rfl : i = n := by omega
      omega)
    have := h _ _ (overtaking_startsFirst n (n + 1)) (by rw [arrivals_overtaking]; exact hn) hrun
    simp only [State.generated] at this
    omega
  · intro h es t _ hfew hrun
    obtain ⟨hfirst, -, -, hserviced, hnumber, hlength, -, -⟩ := hinit
    have hbehind : Behind s := by
      refine ⟨by omega, hlength, by omega, h.imp_right fun hunset i _ hi => ?_, by omega⟩
      by_cases hzero : i = 0
      · subst hzero
        omega
      · exact hunset i (by omega) hi
    exact (bank.run_invariant (fun _ _ _ hb he hs => step_behind hb he hs) hbehind
      (run_enabled hrun (by omega)) hrun).serviced

theorem twoTellers_servesGenerated_iff :
    ServesGenerated twoTellers ↔
      twoTellers.tellers = [] ∨ ∀ n, 1 ≤ n → n < 10000 → twoTellers.queue n ≤ 0 :=
  servesGenerated_iff twoTellers_init

/-- Two tellers, and memory in which the second entry happens to be 7. -/
def staleMemory : State := { twoTellers with queue := fun i => if i = 1 then 7 else 0 }

theorem staleMemory_init : bank.init staleMemory :=
  ⟨rfl, rfl, rfl, rfl, rfl, rfl, by simp [staleMemory, twoTellers], rfl⟩

/-- One customer arrives, and two are served. -/
theorem exists_run_overtaking :
    bank.init staleMemory ∧ StartsFirst staleMemory (overtaking 2 1 2) ∧
      arrivals (overtaking 2 1 2) = 1 ∧
      ∃ t, bank.run staleMemory (overtaking 2 1 2) = some t ∧ t.generated = 1 ∧
        t.customersServiced = 2 :=
  ⟨staleMemory_init, overtaking_startsFirst 1 2, rfl,
    bank.after staleMemory (overtaking 2 1 2), bank.run_eq_after (by decide +kernel),
    by decide +kernel, by decide +kernel⟩

end CompOrg.Bank
