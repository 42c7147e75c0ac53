import CompOrg.Lib.TransitionSystem
import Mathlib.Logic.Function.Basic

/-! # The bank simulation as interleaved threads

The tellers and the generator of `banksim.c` over the shared `bankInfo`. A step is
the start-up assignment of a teller, its loop test, its locked section, the end of
its service, or one arrival; the generator also ends the simulation. Times and
averages are left out, since no thread acts on them. The list of taken indices is a
record of the run that no thread reads.
-/

namespace CompOrg.Bank

inductive Teller
  | created
  | looping
  | locking
  | serving
  | returned
  deriving DecidableEq

structure State where
  queue : Nat → Int
  /-- Number of `int`s behind the pointer `bankInfo.queue`. -/
  allocated : Nat
  endSimulation : Bool
  customersServiced : Nat
  /-- Locals of `generateCustomers`. -/
  customerNumber : Nat
  queueLength : Nat
  tellers : List Teller
  /-- Queue indices in the order in which tellers took them. -/
  taken : List Nat

inductive Event
  | start (k : Nat)
  | check (k : Nat)
  | lock (k : Nat)
  | wake (k : Nat)
  | arrive (reallocated : Bool)
  | finish
  deriving DecidableEq

namespace State

def setTeller (s : State) (k : Nat) (c : Teller) : State := { s with tellers := s.tellers.set k c }

def startStep (s : State) (k : Nat) : Option State :=
  if s.tellers[k]? = some .created then
    some { s.setTeller k .looping with customersServiced := 0 }
  else none

def checkStep (s : State) (k : Nat) : Option State :=
  if s.tellers[k]? = some .looping then
    some (s.setTeller k (if s.endSimulation then .returned else .locking))
  else none

/-- From `pthread_mutex_lock` to `pthread_mutex_unlock`. -/
def lockStep (s : State) (k : Nat) : Option State :=
  if s.tellers[k]? = some .locking then
    if s.queue s.customersServiced > 0 then
      some { s.setTeller k .serving with
        customersServiced := s.customersServiced + 1
        taken := s.taken ++ [s.customersServiced] }
    else some (s.setTeller k .looping)
  else none

def wakeStep (s : State) (k : Nat) : Option State :=
  if s.tellers[k]? = some .serving then some (s.setTeller k .looping) else none

/-- A successful chance draw. When the queue counts as full the arrival only
reallocates it, to 1000 `int`s. -/
def arriveStep (s : State) (reallocated : Bool) : Option State :=
  if s.endSimulation then none
  else if s.queueLength > s.customerNumber then
    some { s with
      queue := Function.update s.queue (s.customerNumber - 1) s.customerNumber
      customerNumber := s.customerNumber + 1 }
  else
    some { s with
      allocated := if reallocated then 1000 else 0
      queueLength := s.queueLength + 1000 }

def step (s : State) : Event → Option State
  | .start k => s.startStep k
  | .check k => s.checkStep k
  | .lock k => s.lockStep k
  | .wake k => s.wakeStep k
  | .arrive reallocated => s.arriveStep reallocated
  | .finish => if s.endSimulation then none else some { s with endSimulation := true }

def generated (s : State) : Nat := s.customerNumber - 1

end State

/-- Any number of tellers, before any of them has started. The `memset` of `main`
clears one `int`; the others hold whatever `malloc` returned. -/
def bank : System State Event where
  init s := s.queue 0 = 0 ∧ s.allocated = 100000 ∧ s.endSimulation = false ∧
    s.customersServiced = 0 ∧ s.customerNumber = 1 ∧ s.queueLength = 10000 ∧
    (∀ c ∈ s.tellers, c = .created) ∧ s.taken = []
  step := State.step

/-! ## What a step can be -/

variable {s s' : State}

/-- Every step with the facts about the queue under which it is taken. -/
inductive Moves (s : State) : Event → State → Prop
  | start (k : Nat) : Moves s (.start k) { s.setTeller k .looping with customersServiced := 0 }
  | check (k : Nat) (c : Teller) : Moves s (.check k) (s.setTeller k c)
  | take (k : Nat) (hq : 0 < s.queue s.customersServiced) :
      Moves s (.lock k) { s.setTeller k .serving with
        customersServiced := s.customersServiced + 1
        taken := s.taken ++ [s.customersServiced] }
  | idle (k : Nat) : Moves s (.lock k) (s.setTeller k .looping)
  | wake (k : Nat) : Moves s (.wake k) (s.setTeller k .looping)
  | arrive (r : Bool) (hroom : s.customerNumber < s.queueLength) :
      Moves s (.arrive r) { s with
        queue := Function.update s.queue (s.customerNumber - 1) s.customerNumber
        customerNumber := s.customerNumber + 1 }
  | enlarge (r : Bool) (hfull : s.queueLength ≤ s.customerNumber) :
      Moves s (.arrive r) { s with
        allocated := if r then 1000 else 0
        queueLength := s.queueLength + 1000 }
  | finish : Moves s .finish { s with endSimulation := true }

theorem step_moves {e : Event} (hs : s.step e = some s') : Moves s e s' := by
  cases e with
  | start k =>
      simp only [State.step, State.startStep, Option.ite_none_right_eq_some,
        Option.some.injEq] at hs
      obtain ⟨-, rfl⟩ := hs
      exact .start k
  | check k =>
      simp only [State.step, State.checkStep, Option.ite_none_right_eq_some,
        Option.some.injEq] at hs
      obtain ⟨-, rfl⟩ := hs
      exact .check k _
  | lock k =>
      simp only [State.step, State.lockStep, Option.ite_none_right_eq_some] at hs
      obtain ⟨-, hs⟩ := hs
      split at hs
      next hq =>
        cases hs
        exact .take k hq
      next =>
        cases hs
        exact .idle k
  | wake k =>
      simp only [State.step, State.wakeStep, Option.ite_none_right_eq_some,
        Option.some.injEq] at hs
      obtain ⟨-, rfl⟩ := hs
      exact .wake k
  | arrive r =>
      simp only [State.step, State.arriveStep, Option.ite_none_left_eq_some] at hs
      obtain ⟨-, hs⟩ := hs
      split at hs
      next hroom =>
        cases hs
        exact .arrive r hroom
      next hfull =>
        cases hs
        exact .enlarge r (Nat.le_of_not_lt hfull)
  | finish =>
      simp only [State.step, Option.ite_none_left_eq_some, Option.some.injEq] at hs
      obtain ⟨-, rfl⟩ := hs
      exact .finish

end CompOrg.Bank
