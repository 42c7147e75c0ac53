import CompOrg.Bank.Service

/-! # The locked section, access by access

Here every read and write of a shared variable is a step of its own, so that other threads
run between them also while a teller holds the mutex: the generator and the tellers that
start take no lock. As long as nobody starts late, the locked section is still one step to
everybody else, and an update line shows the customers that wait.
-/

namespace CompOrg.Bank

/-! ## Threads -/

/-- The next access of a teller, with what it has read before. -/
inductive Thread
  | created
  | looping
  | locking
  /-- `bankInfo.customersServiced` of the test -/
  | index
  /-- `bankInfo.queue[i]` -/
  | test (i : Nat)
  /-- The two halves of `bankInfo.customersServiced += 1` -/
  | load
  | store (n : Nat)
  | unlock (served : Bool)
  | sleeping
  | returned
  deriving DecidableEq

/-- Between `pthread_mutex_lock` and `pthread_mutex_unlock`. -/
def Thread.Locked : Thread → Prop
  | .index | .test _ | .load | .store _ | .unlock _ => True
  | _ => False

structure Threads where
  queue : Nat → Int
  allocated : Nat
  endSimulation : Bool
  customersServiced : Nat
  customerNumber : Nat
  queueLength : Nat
  threads : List Thread
  /-- The thread that holds `mut`. -/
  holder : Option Nat
  taken : List Nat

inductive Access
  | start (k : Nat)
  | check (k : Nat)
  | acquire (k : Nat)
  | index (k : Nat)
  | test (k : Nat) (found : Bool)
  | load (k : Nat)
  | store (k : Nat)
  | release (k : Nat)
  | wake (k : Nat)
  | arrive (reallocated : Bool)
  | finish
  deriving DecidableEq

namespace Threads

def set (s : Threads) (k : Nat) (c : Thread) : Threads := { s with threads := s.threads.set k c }

/-- `if (bankInfo.queue[..] > 0)` -/
def testStep (s : Threads) (k : Nat) (found : Bool) : Option Threads :=
  match s.threads[k]? with
  | some (.test i) =>
      if decide (s.queue i > 0) = found then
        some (s.set k (if found then .load else .unlock false))
      else none
  | _ => none

def storeStep (s : Threads) (k : Nat) : Option Threads :=
  match s.threads[k]? with
  | some (.store n) =>
      some { s.set k (.unlock true) with customersServiced := n + 1, taken := s.taken ++ [n] }
  | _ => none

/-- `pthread_mutex_unlock`, and then `sleep` or `continue`. -/
def releaseStep (s : Threads) (k : Nat) : Option Threads :=
  match s.threads[k]? with
  | some (.unlock served) =>
      some { s.set k (if served then .sleeping else .looping) with holder := none }
  | _ => none

/-- As in `State`. -/
def arriveStep (s : Threads) (reallocated : Bool) : Option Threads :=
  if s.endSimulation then none
  else if s.queueLength > s.customerNumber then
    some { s with
      queue := Function.update s.queue (s.customerNumber - 1) s.customerNumber
      customerNumber := s.customerNumber + 1 }
  else
    some { s with
      allocated := if reallocated then 1000 else 0
      queueLength := s.queueLength + 1000 }

def step (s : Threads) : Access → Option Threads
  | .start k =>
      if s.threads[k]? = some .created then
        some { s.set k .looping with customersServiced := 0 }
      else none
  | .check k =>
      if s.threads[k]? = some .looping then
        some (s.set k (if s.endSimulation then .returned else .locking))
      else none
  | .acquire k =>
      if s.threads[k]? = some .locking ∧ s.holder = none then
        some { s.set k .index with holder := some k }
      else none
  | .index k =>
      if s.threads[k]? = some .index then some (s.set k (.test s.customersServiced)) else none
  | .test k found => s.testStep k found
  | .load k =>
      if s.threads[k]? = some .load then some (s.set k (.store s.customersServiced)) else none
  | .store k => s.storeStep k
  | .release k => s.releaseStep k
  | .wake k => if s.threads[k]? = some .sleeping then some (s.set k .looping) else none
  | .arrive reallocated => s.arriveStep reallocated
  | .finish => if s.endSimulation then none else some { s with endSimulation := true }

end Threads

def bankThreads : System Threads Access where
  init s := s.queue 0 = 0 ∧ s.allocated = 100000 ∧ s.endSimulation = false ∧
    s.customersServiced = 0 ∧ s.customerNumber = 1 ∧ s.queueLength = 10000 ∧
    (∀ c ∈ s.threads, c = .created) ∧ s.holder = none ∧ s.taken = []
  step := Threads.step

/-! ## One step for the section -/

/-- A teller takes its customer with the write of the counter, and finds none with the read of
the queue. -/
def Thread.teller : Thread → Teller
  | .created => .created
  | .looping | .unlock false => .looping
  | .locking | .index | .test _ | .load | .store _ => .locking
  | .unlock true | .sleeping => .serving
  | .returned => .returned

def Access.event : Access → Option Event
  | .start k => some (.start k)
  | .check k => some (.check k)
  | .test k false | .store k => some (.lock k)
  | .wake k => some (.wake k)
  | .arrive reallocated => some (.arrive reallocated)
  | .finish => some .finish
  | .acquire _ | .index _ | .test _ true | .load _ | .release _ => none

def Threads.coarse (s : Threads) : State where
  queue := s.queue
  allocated := s.allocated
  endSimulation := s.endSimulation
  customersServiced := s.customersServiced
  customerNumber := s.customerNumber
  queueLength := s.queueLength
  tellers := s.threads.map Thread.teller
  taken := s.taken

theorem coarse_init {s : Threads} (h : bankThreads.init s) : bank.init s.coarse := by
  obtain ⟨hqueue, hallocated, hend, hserviced, hnumber, hlength, hcreated, -, htaken⟩ := h
  refine ⟨hqueue, hallocated, hend, hserviced, hnumber, hlength, fun c hc => ?_, htaken⟩
  obtain ⟨d, hd, rfl⟩ := List.mem_map.mp hc
  rw [hcreated d hd]
  rfl

variable {s s' t : Threads}

theorem coarse_set (s : Threads) (k : Nat) (c : Thread) :
    (s.set k c).coarse = s.coarse.setTeller k c.teller := by
  simp [Threads.coarse, Threads.set, State.setTeller, List.map_set]

theorem coarse_tellers {k : Nat} {c : Thread} (hk : s.threads[k]? = some c) :
    s.coarse.tellers[k]? = some c.teller := by
  simp [Threads.coarse, hk]

theorem coarse_set_same {k : Nat} {c d : Thread} (hk : s.threads[k]? = some d)
    (hteller : c.teller = d.teller) : (s.set k c).coarse = s.coarse := by
  obtain ⟨hlt, hget⟩ := List.getElem?_eq_some_iff.mp (coarse_tellers hk)
  rw [coarse_set, hteller, State.setTeller, ← hget, List.set_getElem_self]

/-! ## What a step can be -/

/-- Every step with what is known of the thread that takes it. -/
inductive AccessMoves (s : Threads) : Access → Threads → Prop
  | start {k} (hk : s.threads[k]? = some .created) :
      AccessMoves s (.start k) { s.set k .looping with customersServiced := 0 }
  | check {k} (hk : s.threads[k]? = some .looping) :
      AccessMoves s (.check k) (s.set k (if s.endSimulation then .returned else .locking))
  | acquire {k} (hk : s.threads[k]? = some .locking) (hfree : s.holder = none) :
      AccessMoves s (.acquire k) { s.set k .index with holder := some k }
  | index {k} (hk : s.threads[k]? = some .index) :
      AccessMoves s (.index k) (s.set k (.test s.customersServiced))
  | found {k i} (hk : s.threads[k]? = some (.test i)) (hqueue : 0 < s.queue i) :
      AccessMoves s (.test k true) (s.set k .load)
  | missed {k i} (hk : s.threads[k]? = some (.test i)) (hqueue : ¬ 0 < s.queue i) :
      AccessMoves s (.test k false) (s.set k (.unlock false))
  | load {k} (hk : s.threads[k]? = some .load) :
      AccessMoves s (.load k) (s.set k (.store s.customersServiced))
  | store {k n} (hk : s.threads[k]? = some (.store n)) :
      AccessMoves s (.store k)
        { s.set k (.unlock true) with customersServiced := n + 1, taken := s.taken ++ [n] }
  | release {k served} (hk : s.threads[k]? = some (.unlock served)) :
      AccessMoves s (.release k)
        { s.set k (if served then .sleeping else .looping) with holder := none }
  | wake {k} (hk : s.threads[k]? = some .sleeping) :
      AccessMoves s (.wake k) (s.set k .looping)
  | arrive {r} (hend : s.endSimulation = false) (hroom : s.customerNumber < s.queueLength) :
      AccessMoves s (.arrive r) { s with
        queue := Function.update s.queue (s.customerNumber - 1) s.customerNumber
        customerNumber := s.customerNumber + 1 }
  | enlarge {r} (hend : s.endSimulation = false) (hfull : s.queueLength ≤ s.customerNumber) :
      AccessMoves s (.arrive r) { s with
        allocated := if r then 1000 else 0
        queueLength := s.queueLength + 1000 }
  | finish (hend : s.endSimulation = false) :
      AccessMoves s .finish { s with endSimulation := true }

theorem testStep_moves {k : Nat} {found : Bool} (hs : s.testStep k found = some s') :
    AccessMoves s (.test k found) s' := by
  unfold Threads.testStep at hs
  split at hs
  next i hk =>
    split at hs
    next hfound =>
      cases hs
      cases found with
      | true => exact .found hk (of_decide_eq_true hfound)
      | false => exact .missed hk (of_decide_eq_false hfound)
    next => cases hs
  next => cases hs

theorem arriveStep_moves {r : Bool} (hs : s.arriveStep r = some s') :
    AccessMoves s (.arrive r) s' := by
  obtain ⟨hend, hs⟩ := Option.ite_none_left_eq_some.mp hs
  have hend : s.endSimulation = false := Bool.eq_false_iff.mpr hend
  split at hs
  next hroom =>
    cases hs
    exact .arrive hend hroom
  next hfull =>
    cases hs
    exact .enlarge hend (Nat.le_of_not_lt hfull)

theorem access_moves {e : Access} (hs : s.step e = some s') : AccessMoves s e s' := by
  cases e with
  | start k =>
      obtain ⟨hk, hs⟩ := Option.ite_none_right_eq_some.mp hs
      cases hs
      exact .start hk
  | check k =>
      obtain ⟨hk, hs⟩ := Option.ite_none_right_eq_some.mp hs
      cases hs
      exact .check hk
  | acquire k =>
      obtain ⟨⟨hk, hfree⟩, hs⟩ := Option.ite_none_right_eq_some.mp hs
      cases hs
      exact .acquire hk hfree
  | index k =>
      obtain ⟨hk, hs⟩ := Option.ite_none_right_eq_some.mp hs
      cases hs
      exact .index hk
  | test k found => exact testStep_moves hs
  | load k =>
      obtain ⟨hk, hs⟩ := Option.ite_none_right_eq_some.mp hs
      cases hs
      exact .load hk
  | store k =>
      replace hs : s.storeStep k = some s' := hs
      unfold Threads.storeStep at hs
      split at hs
      next n hk =>
        cases hs
        exact .store hk
      next => cases hs
  | release k =>
      replace hs : s.releaseStep k = some s' := hs
      unfold Threads.releaseStep at hs
      split at hs
      next served hk =>
        cases hs
        exact .release hk
      next => cases hs
  | wake k =>
      obtain ⟨hk, hs⟩ := Option.ite_none_right_eq_some.mp hs
      cases hs
      exact .wake hk
  | arrive r => exact arriveStep_moves hs
  | finish =>
      obtain ⟨hend, hs⟩ := Option.ite_none_left_eq_some.mp hs
      cases hs
      exact .finish (Bool.eq_false_iff.mpr hend)

/-! ## The mutex -/

/-- What a teller in the locked section has read is still so. -/
def Thread.Knows (queue : Nat → Int) (serviced : Nat) : Thread → Prop
  | .test i => i = serviced
  | .load => 0 < queue serviced
  | .store n => n = serviced ∧ 0 < queue serviced
  | _ => True

theorem Thread.knows_of_not_locked {c : Thread} (h : ¬ c.Locked) (queue : Nat → Int) (n : Nat) :
    c.Knows queue n := by
  cases c <;> first | trivial | exact (h trivial).elim

structure Exclusive (s : Threads) : Prop where
  numbered : 1 ≤ s.customerNumber
  holder : ∀ (k : Nat) (c : Thread), s.threads[k]? = some c → c.Locked → s.holder = some k
  knows : ∀ (k : Nat) (c : Thread), s.threads[k]? = some c → c.Knows s.queue s.customersServiced

theorem getElem?_set_cases {l : List Thread} {j k : Nat} {c d : Thread}
    (h : (l.set k c)[j]? = some d) : j = k ∧ d = c ∨ j ≠ k ∧ l[j]? = some d := by
  by_cases hj : j = k
  · obtain ⟨hlt, hget⟩ := List.getElem?_eq_some_iff.mp h
    subst hj
    rw [List.getElem_set_self] at hget
    exact Or.inl ⟨rfl, hget.symm⟩
  · rw [List.getElem?_set_ne (Ne.symm hj)] at h
    exact Or.inr ⟨hj, h⟩

/-- A step of one thread that writes no shared variable but the mutex. -/
theorem Exclusive.goto {k : Nat} {c : Thread} (h : Exclusive s)
    (hthreads : s'.threads = s.threads.set k c) (hqueue : s'.queue = s.queue)
    (hserviced : s'.customersServiced = s.customersServiced)
    (hnumber : s'.customerNumber = s.customerNumber) (hlocked : c.Locked → s'.holder = some k)
    (hothers : ∀ j, j ≠ k → s.holder = some j → s'.holder = some j)
    (hknows : c.Knows s.queue s.customersServiced) : Exclusive s' where
  numbered := hnumber ▸ h.numbered
  holder j d hj hd := by
    rw [hthreads] at hj
    rcases getElem?_set_cases hj with ⟨rfl, rfl⟩ | ⟨hne, hj⟩
    · exact hlocked hd
    · exact hothers j hne (h.holder j d hj hd)
  knows j d hj := by
    rw [hthreads] at hj
    rw [hqueue, hserviced]
    rcases getElem?_set_cases hj with ⟨-, rfl⟩ | ⟨-, hj⟩
    · exact hknows
    · exact h.knows j d hj

theorem Exclusive.generator (h : Exclusive s) (hthreads : s'.threads = s.threads)
    (hholder : s'.holder = s.holder) (hserviced : s'.customersServiced = s.customersServiced)
    (hnumber : 1 ≤ s'.customerNumber)
    (hqueue : 0 < s.queue s.customersServiced → 0 < s'.queue s.customersServiced) :
    Exclusive s' where
  numbered := hnumber
  holder k c hk hc := by
    rw [hthreads] at hk
    rw [hholder]
    exact h.holder k c hk hc
  knows k c hk := by
    rw [hthreads] at hk
    rw [hserviced]
    have hknows := h.knows k c hk
    cases c with
    | load => exact hqueue hknows
    | store n => exact ⟨hknows.1, hqueue hknows.2⟩
    | _ => exact hknows

/-- A teller that starts leaves the counter alone. -/
def Threads.Fresh (s : Threads) : Access → Prop
  | .start _ => s.customersServiced = 0
  | _ => True

instance (s : Threads) : ∀ e, Decidable (s.Fresh e)
  | .start _ => inferInstanceAs (Decidable (s.customersServiced = 0))
  | .check _ | .acquire _ | .index _ | .test _ _ | .load _ | .store _ | .release _ | .wake _
  | .arrive _ | .finish => isTrue trivial

theorem moves_exclusive {e : Access} (h : Exclusive s) (hfresh : s.Fresh e)
    (hm : AccessMoves s e s') : Exclusive s' := by
  cases hm with
  | @start k hk =>
      exact h.goto rfl rfl (Eq.symm hfresh) rfl (fun hc => hc.elim) (fun _ _ hj => hj) trivial
  | @check k hk =>
      refine h.goto rfl rfl rfl rfl (fun hc => ?_) (fun _ _ hj => hj) ?_
      · split at hc <;> exact hc.elim
      · split <;> trivial
  | @acquire k hk hfree =>
      refine h.goto rfl rfl rfl rfl (fun _ => rfl) (fun j _ hj => ?_) trivial
      rw [hfree] at hj
      cases hj
  | @index k hk =>
      exact h.goto rfl rfl rfl rfl (fun _ => h.holder k _ hk trivial) (fun _ _ hj => hj) rfl
  | @found k i hk hqueue =>
      have hi : i = s.customersServiced := h.knows k _ hk
      exact h.goto rfl rfl rfl rfl (fun _ => h.holder k _ hk trivial) (fun _ _ hj => hj)
        (hi ▸ hqueue)
  | @missed k i hk hqueue =>
      exact h.goto rfl rfl rfl rfl (fun _ => h.holder k _ hk trivial) (fun _ _ hj => hj) trivial
  | @load k hk =>
      exact h.goto rfl rfl rfl rfl (fun _ => h.holder k _ hk trivial) (fun _ _ hj => hj)
        ⟨rfl, h.knows k _ hk⟩
  | @store k n hk =>
      -- the counter moves, but nobody else has read it
      have hholder := h.holder k _ hk trivial
      refine ⟨h.numbered, fun j d hj hd => ?_, fun j d hj => ?_⟩
      · rcases getElem?_set_cases hj with ⟨rfl, -⟩ | ⟨-, hj⟩
        · exact hholder
        · exact h.holder j d hj hd
      · rcases getElem?_set_cases hj with ⟨-, rfl⟩ | ⟨hne, hj⟩
        · trivial
        · refine Thread.knows_of_not_locked (fun hd => hne ?_) _ _
          exact Option.some.inj ((h.holder j d hj hd).symm.trans hholder)
  | @release k served hk =>
      refine h.goto rfl rfl rfl rfl (fun hc => ?_) (fun j hne hj => ?_) ?_
      · split at hc <;> exact hc.elim
      · have hholder := h.holder k _ hk trivial
        exact (hne (Option.some.inj (hj.symm.trans hholder))).elim
      · split <;> trivial
  | @wake k hk =>
      exact h.goto rfl rfl rfl rfl (fun hc => hc.elim) (fun _ _ hj => hj) trivial
  | enlarge | finish => exact h.generator rfl rfl rfl h.numbered id
  | arrive hend hroom =>
      refine h.generator rfl rfl rfl (Nat.le_add_left 1 _) fun hpos => ?_
      have hnumber := h.numbered
      dsimp only
      rw [Function.update_apply]
      split
      · omega
      · exact hpos

theorem init_exclusive (h : bankThreads.init s) : Exclusive s := by
  obtain ⟨-, -, -, -, hnumber, -, hcreated, -⟩ := h
  have hunlocked : ∀ (k : Nat) (c : Thread), s.threads[k]? = some c → ¬ c.Locked := by
    intro k c hk hc
    rw [hcreated c (List.mem_of_getElem? hk)] at hc
    exact hc
  exact ⟨by omega, fun k c hk hc => (hunlocked k c hk hc).elim,
    fun k c hk => Thread.knows_of_not_locked (hunlocked k c hk) _ _⟩

/-! ## Atomicity -/

/-- To the others the section is the one step at its last write, or at its read of an entry
without a customer. -/
theorem moves_coarse {e : Access} (h : Exclusive s) (hm : AccessMoves s e s') :
    bank.stepOrStay s.coarse e.event = some s'.coarse := by
  cases hm with
  | @start k hk =>
      refine (if_pos (coarse_tellers hk)).trans ?_
      simp [Threads.coarse, Threads.set, State.setTeller, List.map_set, Thread.teller]
  | @check k hk =>
      refine (if_pos (coarse_tellers hk)).trans ?_
      rw [coarse_set]
      cases hend : s.endSimulation <;> simp [Threads.coarse, hend, Thread.teller]
  | @missed k i hk hqueue =>
      have hi : i = s.customersServiced := h.knows k _ hk
      rw [hi] at hqueue
      refine (if_pos (coarse_tellers hk)).trans ((if_neg hqueue).trans ?_)
      rw [coarse_set]
      rfl
  | @store k n hk =>
      obtain ⟨hn, hqueue⟩ : n = s.customersServiced ∧ 0 < s.queue s.customersServiced :=
        h.knows k _ hk
      refine (if_pos (coarse_tellers hk)).trans ((if_pos hqueue).trans ?_)
      simp [Threads.coarse, Threads.set, State.setTeller, List.map_set, Thread.teller, hn]
  | @wake k hk =>
      refine (if_pos (coarse_tellers hk)).trans ?_
      rw [coarse_set]
      rfl
  | @release k served hk =>
      refine congrArg some (Eq.symm (coarse_set_same hk ?_))
      cases served <;> rfl
  | acquire hk | index hk | found hk | load hk =>
      refine congrArg some (Eq.symm (coarse_set_same hk ?_))
      rfl
  | arrive hend hroom =>
      exact (if_neg (by simp [Threads.coarse, hend])).trans (if_pos hroom)
  | enlarge hend hfull =>
      exact (if_neg (by simp [Threads.coarse, hend])).trans (if_neg (Nat.not_lt.mpr hfull))
  | finish hend => exact if_neg (by simp [Threads.coarse, hend])

/-- The queue length of an update line. -/
def Threads.lengthShown (s : Threads) : Int := s.customerNumber - s.customersServiced - 1

/-- Customers are taken in order, and an update would show how many wait. -/
def Threads.Orderly (s : Threads) : Prop :=
  InOrder s.coarse ∧ s.lengthShown = (s.coarse.generated : Int) - s.taken.length

/-- The arrivals of an access. -/
def Access.arrivals (e : Access) : Nat := Bank.arrivals e.event.toList

/-- The access is possible, and an arrival finds the queue long enough. -/
def Threads.Enabled (s : Threads) (e : Access) : Prop :=
  (bankThreads.step s e).isSome = true ∧ s.customerNumber + e.arrivals ≤ s.queueLength

theorem startsFresh_iff {e : Access} {d : Event} (hd : e.event = some d) :
    StartsFresh s.coarse d ↔ s.Fresh e := by
  cases e with
  | start k =>
      cases hd
      exact Iff.rfl
  | test k found =>
      cases found <;> cases hd
      exact Iff.rfl
  | check | store | wake | arrive | finish =>
      cases hd
      exact Iff.rfl
  | acquire | index | load | release => cases hd

theorem step_order {e : Access} (h : Exclusive s) (hfilled : Filled s.coarse)
    (ho : InOrder s.coarse) (hroom : s.customerNumber + e.arrivals ≤ s.queueLength)
    (hm : AccessMoves s e s') : Filled s'.coarse ∧ (InOrder s'.coarse ↔ s.Fresh e) := by
  have hcoarse := moves_coarse h hm
  cases hd : e.event with
  | none =>
      rw [hd] at hcoarse
      rw [← Option.some.inj hcoarse]
      refine ⟨hfilled, iff_of_true ho ?_⟩
      cases e with
      | start k => cases hd
      | _ => trivial
  | some d =>
      rw [hd] at hcoarse
      rw [Access.arrivals, hd] at hroom
      have henabled : Enabled s.coarse d := by
        refine ⟨Option.isSome_iff_exists.mpr ⟨_, hcoarse⟩, ?_⟩
        rintro r rfl
        exact hroom
      obtain ⟨t, ht, hfilled', horder⟩ := step_inOrder hfilled ho henabled
      obtain rfl := Option.some.inj (ht.symm.trans hcoarse)
      exact ⟨hfilled', horder.trans (startsFresh_iff hd)⟩

theorem Threads.orderly_iff (hfilled : Filled s.coarse) : s.Orderly ↔ InOrder s.coarse := by
  refine and_iff_left_of_imp fun ho => ?_
  have hserviced : s.customersServiced = s.taken.length := ho.2.1
  have hnumber : 1 ≤ s.customerNumber := hfilled.numbered
  have hgenerated : s.coarse.generated = s.customerNumber - 1 := rfl
  rw [Threads.lengthShown, hgenerated]
  omega

theorem step_orderly {e : Access} (hfilled : Filled s.coarse)
    (hexclusive : InOrder s.coarse → Exclusive s) (ho : s.Orderly) (he : s.Enabled e) :
    ∃ s', bankThreads.step s e = some s' ∧
      (Filled s'.coarse ∧ (InOrder s'.coarse → Exclusive s')) ∧ (s'.Orderly ↔ s.Fresh e) := by
  obtain ⟨s', hs⟩ := Option.isSome_iff_exists.mp he.1
  have hm := access_moves hs
  have h := hexclusive ho.1
  obtain ⟨hfilled', horder⟩ := step_order h hfilled ho.1 he.2 hm
  exact ⟨s', hs, ⟨hfilled', fun ho' => moves_exclusive h (horder.mp ho') hm⟩,
    (Threads.orderly_iff hfilled').trans horder⟩

/-! ## Runs -/

theorem moves_room {e : Access} (hm : AccessMoves s e s')
    (hroom : s.customerNumber + e.arrivals ≤ s.queueLength) :
    s'.queueLength = s.queueLength ∧ s'.customerNumber = s.customerNumber + e.arrivals := by
  cases hm with
  | enlarge hend hfull =>
      replace hroom : s.customerNumber + 1 ≤ s.queueLength := hroom
      omega
  | _ => exact ⟨rfl, rfl⟩

theorem arrivals_filterMap_cons (e : Access) (es : List Access) :
    arrivals ((e :: es).filterMap Access.event) =
      e.arrivals + arrivals (es.filterMap Access.event) := by
  cases hd : e.event with
  | none =>
      rw [List.filterMap_cons_none hd, Access.arrivals, hd]
      exact (Nat.zero_add _).symm
  | some d =>
      rw [List.filterMap_cons_some hd, Access.arrivals, hd]
      rfl

theorem threads_enabled {es : List Access} (hrun : bankThreads.run s es = some t)
    (hroom : s.customerNumber + arrivals (es.filterMap Access.event) ≤ s.queueLength) :
    bankThreads.Meets Threads.Enabled s es := by
  induction es generalizing s with
  | nil => trivial
  | cons e es ih =>
      obtain ⟨m, hm, hrest⟩ := bankThreads.run_cons_some hrun
      rw [arrivals_filterMap_cons] at hroom
      obtain ⟨hlength, hnumber⟩ := moves_room (access_moves hm) (by omega)
      refine (bankThreads.meets_cons_of_step hm).mpr ⟨⟨?_, by omega⟩, ih hrest (by omega)⟩
      exact Option.isSome_iff_exists.mpr ⟨m, hm⟩

/-- With an all zero queue and fewer than 10000 arrivals, each customer is served once and in
the order of arrival, and an update shows how many wait, throughout a run exactly when no
teller of it starts after the first customer was counted. -/
theorem threads_orderly_iff {es : List Access} (hinit : bankThreads.init s)
    (hzero : ∀ i, s.queue i = 0) (hrun : bankThreads.run s es = some t)
    (hfew : arrivals (es.filterMap Access.event) < 10000) :
    bankThreads.Always Threads.Orderly s es ↔ bankThreads.Meets Threads.Fresh s es := by
  have hexclusive := init_exclusive hinit
  obtain ⟨-, -, -, hserviced, hnumber, hlength, -, -, htaken⟩ := hinit
  have hfilled : Filled s.coarse := by
    refine ⟨Nat.le_of_eq hnumber.symm, fun i => ?_⟩
    simp [Threads.coarse, State.generated, hzero i, hnumber]
  have horder : InOrder s.coarse := by
    simp [InOrder, Threads.coarse, htaken, hserviced]
  refine bankThreads.always_iff_meets
    (fun s e (h : Filled s.coarse ∧ (InOrder s.coarse → Exclusive s)) ho he =>
      step_orderly h.1 h.2 ho he)
    ⟨hfilled, fun _ => hexclusive⟩ ((Threads.orderly_iff hfilled).mpr horder)
    (threads_enabled hrun (by omega))

/-- Two tellers about to start. -/
def twoThreads : Threads where
  queue _ := 0
  allocated := 100000
  endSimulation := false
  customersServiced := 0
  customerNumber := 1
  queueLength := 10000
  threads := [.created, .created]
  holder := none
  taken := []

theorem twoThreads_init : bankThreads.init twoThreads :=
  ⟨rfl, rfl, rfl, rfl, rfl, rfl, by simp [twoThreads], rfl, rfl⟩

/-- The second teller starts while the first one has its first customer half counted. -/
def startInSection : List Access :=
  [.start 0, .arrive true, .check 0, .acquire 0, .index 0, .test 0 true, .load 0, .start 1,
    .store 0, .check 1, .arrive true, .release 0, .acquire 1]

theorem startInSection_run :
    bankThreads.run twoThreads startInSection =
      some (bankThreads.after twoThreads startInSection) :=
  bankThreads.run_eq_after (by decide +kernel)

theorem startInSection_fresh : bankThreads.Meets Threads.Fresh twoThreads startInSection := by
  decide +kernel

theorem startInSection_orderly_iff :
    bankThreads.Always Threads.Orderly twoThreads startInSection ↔
      bankThreads.Meets Threads.Fresh twoThreads startInSection :=
  threads_orderly_iff twoThreads_init (fun _ => rfl) startInSection_run (by decide)

end CompOrg.Bank
