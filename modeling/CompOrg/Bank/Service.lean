import CompOrg.Bank.Model

/-! # Customers in arrival order

Each locked section takes the customer at the index of the shared counter, so the
customers are served in order as long as the counter counts them. The counter is
also reset by every teller that starts; the runs in which no customer is lost or
served twice are the runs in which every teller starts while nobody has been served.
-/

namespace CompOrg.Bank

/-- Indices are taken from zero on without gap, and the counter counts them. -/
def InOrder (s : State) : Prop :=
  s.taken = List.range s.taken.length ∧ s.customersServiced = s.taken.length ∧
    s.customersServiced ≤ s.generated

def StartsFresh (s : State) : Event → Prop
  | .start _ => s.customersServiced = 0
  | _ => True

instance (s : State) : ∀ e, Decidable (StartsFresh s e)
  | .start _ => inferInstanceAs (Decidable (s.customersServiced = 0))
  | .check _ | .lock _ | .wake _ | .arrive _ | .finish => isTrue trivial

variable {s s' : State}

/-! ## One step -/

/-- What the queue holds while it has never been reallocated. -/
structure Filled (s : State) : Prop where
  numbered : 1 ≤ s.customerNumber
  queue : ∀ i, 0 < s.queue i ↔ i < s.generated

/-- The step is possible, and an arrival finds the queue long enough. -/
def Enabled (s : State) (e : Event) : Prop :=
  (s.step e).isSome = true ∧ ∀ r, e = .arrive r → s.customerNumber < s.queueLength

theorem arrive_filled (h : Filled s) :
    Filled { s with
      queue := Function.update s.queue (s.customerNumber - 1) s.customerNumber
      customerNumber := s.customerNumber + 1 } where
  numbered := by dsimp only; omega
  queue i := by
    have hnum := h.numbered
    have hq := h.queue i
    unfold State.generated at hq ⊢
    dsimp only
    rw [Function.update_apply]
    split
    · omega
    · rw [hq]
      omega

theorem lock_inOrder (k : Nat) (h : Filled s) (ho : InOrder s)
    (hq : 0 < s.queue s.customersServiced) :
    InOrder { s.setTeller k .serving with
      customersServiced := s.customersServiced + 1
      taken := s.taken ++ [s.customersServiced] } := by
  obtain ⟨htaken, hcount, -⟩ := ho
  have hlt := (h.queue _).mp hq
  refine ⟨?_, ?_, ?_⟩
  · dsimp only
    rw [List.length_append, List.length_singleton, List.range_succ, ← htaken, hcount]
  · dsimp only
    rw [List.length_append, List.length_singleton, hcount]
  · exact hlt

/-- A start resets the counter, which is right only when it is zero already. -/
theorem start_inOrder_iff (k : Nat) (ho : InOrder s) :
    InOrder { s.setTeller k .looping with customersServiced := 0 } ↔ s.customersServiced = 0 := by
  obtain ⟨htaken, hcount, -⟩ := ho
  constructor
  · rintro ⟨-, hzero, -⟩
    exact hcount.trans hzero.symm
  · intro hzero
    exact ⟨htaken, hzero.symm.trans hcount, Nat.zero_le _⟩

/-- One step keeps the queue filled, and the order exactly when it starts nobody late. -/
theorem step_inOrder (h : Filled s) (ho : InOrder s) {e : Event} (he : Enabled s e) :
    ∃ s', bank.step s e = some s' ∧ Filled s' ∧ (InOrder s' ↔ StartsFresh s e) := by
  obtain ⟨s', hs⟩ := Option.isSome_iff_exists.mp he.1
  refine ⟨s', hs, ?_⟩
  cases step_moves hs with
  | start k => exact ⟨⟨h.numbered, h.queue⟩, start_inOrder_iff k ho⟩
  | take k hq => exact ⟨⟨h.numbered, h.queue⟩, iff_of_true (lock_inOrder k h ho hq) trivial⟩
  | check | idle | wake | finish => exact ⟨⟨h.numbered, h.queue⟩, iff_of_true ho trivial⟩
  | arrive r =>
      refine ⟨arrive_filled h, iff_of_true ⟨ho.1, ho.2.1, ?_⟩ trivial⟩
      have := ho.2.2
      unfold State.generated at this ⊢
      dsimp only
      omega
  | enlarge r hfull =>
      have := he.2 r rfl
      omega

/-! ## Runs -/

def Event.arrivals : Event → Nat
  | .arrive _ => 1
  | _ => 0

def arrivals : List Event → Nat
  | [] => 0
  | e :: es => e.arrivals + arrivals es

/-- While the queue is long enough, only an arrival moves the generator. -/
theorem step_generator {e : Event} (hs : s.step e = some s')
    (hroom : s.customerNumber + e.arrivals ≤ s.queueLength) :
    s'.queueLength = s.queueLength ∧ s'.customerNumber = s.customerNumber + e.arrivals := by
  cases step_moves hs with
  | start | check | take | idle | wake | arrive | finish => exact ⟨rfl, rfl⟩
  | enlarge r hfull =>
      have hone : (Event.arrive r).arrivals = 1 := rfl
      omega

/-- A run with few arrivals counts them, and the queue keeps its length at every step. -/
theorem run_generator {n : Nat} {P : State → Event → Prop} {es : List Event}
    (hP : ∀ m e t, bank.step m e = some t → m.queueLength = s.queueLength →
      m.customerNumber + e.arrivals ≤ n → P m e)
    (hrun : bank.run s es = some s') (hn : n ≤ s.queueLength)
    (hfew : s.customerNumber + arrivals es ≤ n) :
    bank.Meets P s es ∧ s'.customerNumber = s.customerNumber + arrivals es := by
  induction es generalizing s with
  | nil =>
      cases hrun
      exact ⟨trivial, rfl⟩
  | cons e es ih =>
      obtain ⟨m, hm, hrest⟩ := bank.run_cons_some hrun
      rw [arrivals] at hfew ⊢
      obtain ⟨hlength, hnumber⟩ := step_generator hm (by omega)
      rw [← hlength] at hn
      have hPm : ∀ u e t, bank.step u e = some t → u.queueLength = m.queueLength →
          u.customerNumber + e.arrivals ≤ n → P u e := fun u e t ht hu =>
        hP u e t ht (hu.trans hlength)
      obtain ⟨hmeets, hcount⟩ := ih hPm hrest hn (by omega)
      have hhere : P s e := hP s e m hm rfl (by omega)
      exact ⟨(bank.meets_cons_of_step hm).mpr ⟨hhere, hmeets⟩, by omega⟩

theorem run_enabled {es : List Event} (hrun : bank.run s es = some s')
    (hroom : s.customerNumber + arrivals es ≤ s.queueLength) : bank.Meets Enabled s es := by
  have hP : ∀ m e t, bank.step m e = some t → m.queueLength = s.queueLength →
      m.customerNumber + e.arrivals ≤ s.queueLength → Enabled m e := by
    intro m e t ht hlength hle
    refine ⟨Option.isSome_iff_exists.mpr ⟨t, ht⟩, ?_⟩
    rintro r rfl
    have hone : (Event.arrive r).arrivals = 1 := rfl
    omega
  exact (run_generator hP hrun (Nat.le_refl _) hroom).1

theorem always_inOrder_iff {es : List Event} (hinit : bank.init s) (hzero : ∀ i, s.queue i = 0)
    (hrun : bank.run s es = some s') (hfew : arrivals es < 10000) :
    bank.Always InOrder s es ↔ bank.Meets StartsFresh s es := by
  obtain ⟨-, -, -, hserviced, hnumber, hlength, -, htaken⟩ := hinit
  have hfilled : Filled s := by
    refine ⟨by omega, fun i => ?_⟩
    rw [hzero i, State.generated, hnumber]
    simp
  have horder : InOrder s := by
    refine ⟨by rw [htaken]; rfl, by rw [htaken, hserviced]; rfl, by omega⟩
  exact bank.always_iff_meets (fun _ _ h ho he => step_inOrder h ho he) hfilled horder
    (run_enabled hrun (by omega))

/-- With an all zero queue and fewer than 10000 arrivals, customers are served once
each in arrival order throughout a run exactly when every teller of the run starts
before the first service. -/
theorem run_inOrder_iff {es : List Event} (hinit : bank.init s) (hzero : ∀ i, s.queue i = 0)
    (hrun : bank.run s es = some s') (hfew : arrivals es < 10000) :
    bank.Always InOrder s es ↔ bank.Meets StartsFresh s es :=
  always_inOrder_iff hinit hzero hrun hfew

def twoTellers : State where
  queue _ := 0
  allocated := 100000
  endSimulation := false
  customersServiced := 0
  customerNumber := 1
  queueLength := 10000
  tellers := [.created, .created]
  taken := []

theorem twoTellers_init : bank.init twoTellers :=
  ⟨rfl, rfl, rfl, rfl, rfl, rfl, by simp [twoTellers], rfl⟩

/-- The second teller starts after the first one has served a customer. -/
def lateStart : List Event :=
  [.start 0, .arrive true, .check 0, .lock 0, .start 1, .check 1, .lock 1]

theorem lateStart_run :
    bank.run twoTellers lateStart = some (bank.after twoTellers lateStart) :=
  bank.run_eq_after (by decide +kernel)

theorem lateStart_inOrder_iff :
    bank.Always InOrder twoTellers lateStart ↔ bank.Meets StartsFresh twoTellers lateStart :=
  run_inOrder_iff twoTellers_init (fun _ => rfl) lateStart_run (by decide)

/-- The late teller serves the first customer a second time. -/
theorem exists_run_not_inOrder :
    ¬ ∀ s es t, bank.init s → (∀ i, s.queue i = 0) → bank.run s es = some t →
      arrivals es < 10000 → bank.Always InOrder s es := by
  intro h
  have halways := h _ _ _ twoTellers_init (fun _ => rfl) lateStart_run (by decide)
  have hlate : ¬ bank.Meets StartsFresh twoTellers lateStart := by decide +kernel
  exact hlate ((always_inOrder_iff twoTellers_init (fun _ => rfl) lateStart_run
    (by decide)).mp halways)

end CompOrg.Bank
