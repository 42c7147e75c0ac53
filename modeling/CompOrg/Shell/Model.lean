import CompOrg.Lib.TransitionSystem
import CompOrg.Shell.JobTable

/-! # The shell as interleaved statements

One step is a statement of the main thread, an iteration of `sigchld_handler`, or
something the children or the kernel do. The handler runs on the main thread, so it
starts only between two statements and the main thread waits until it returns.
What `fork`, `kill` and `waitpid` answer is part of the event; so are the words of a
line, which `parseline` has computed before anything shared is read. The search
loops other than the one of `addjob` are single steps: the handler only clears
entries, so what such a loop returns is what one look at the table gives.
-/

namespace CompOrg.Shell

/-! ## Arguments of `bg` and `fg` -/

/-- The characters of a word of the source. -/
def ascii (cs : List Char) : List UInt8 := cs.map fun c => UInt8.ofNat c.toNat

/-- What `sscanf` returns for a format with one conversion: `1`, `0` or `EOF`. -/
inductive Scan
  | matched (n : Int)
  | mismatch
  | eof
  deriving DecidableEq

/-- A numeral is read as a `long` and stored in an `int`. -/
def scanDigits (negative : Bool) (s : List UInt8) : Scan :=
  match s.takeWhile fun c => digitValue c < 10 with
  | [] => .mismatch
  | _ => .matched (int32 (toLong negative (magnitude 10 s)))

/-- `sscanf(s, "%d", &n)` -/
def scanInt (s : List UInt8) : Scan :=
  match s.dropWhile isspace with
  | [] => .eof
  | c :: cs =>
      if c = '-'.toUInt8 then scanDigits true cs
      else if c = '+'.toUInt8 then scanDigits false cs
      else scanDigits false (c :: cs)

/-- `sscanf(s, "%%%d", &n)` -/
def scanPercentInt (s : List UInt8) : Scan :=
  match s.dropWhile isspace with
  | [] => .eof
  | c :: cs => if c = '%'.toUInt8 then scanInt cs else .mismatch

/-- Where the argument of `bg` or `fg` leads: `exit`, an error message, or a job. -/
inductive Target
  | exits
  | returns
  | job (i : Slot)
  deriving DecidableEq

def Target.ofSlot : Option Slot → Target
  | some i => .job i
  | none => .returns

/-- The lookups of `do_bgfg`. After an `EOF` of the second `sscanf` the variable `jid`
is used although it was never assigned; `unset` is what it happens to hold. -/
def bgfgTarget (t : JobTable) (arg : List UInt8) (unset : Int) : Target :=
  match scanInt arg with
  | .matched pid => .ofSlot (t.getjobpid pid)
  | .eof => .exits
  | .mismatch =>
      match scanPercentInt arg with
      | .mismatch => .returns
      | .matched jid => .ofSlot (t.getjobjid jid)
      | .eof => .ofSlot (t.getjobjid unset)

/-! ## States -/

inductive Signal
  | sigchld
  | sigtstp
  deriving DecidableEq

/-- The set that `eval` blocks: `sigaddset(&mask, SIGTSTP)`. -/
def evalMask : List Signal := [.sigtstp]

/-- A child as `waitpid` sees it; `reported` is a stop that was already returned. -/
inductive ChildStatus
  | running
  | stopped
  | reported
  | exited
  | signaled
  | reaped
  deriving DecidableEq

def ChildStatus.Waitable (c : ChildStatus) : Prop := c = .stopped ∨ c = .exited ∨ c = .signaled

instance : DecidablePred ChildStatus.Waitable := fun c =>
  inferInstanceAs (Decidable (c = .stopped ∨ c = .exited ∨ c = .signaled))

/-- The arguments with which `eval` adds a child. -/
structure NewJob where
  pid : Int
  bg : Bool
  cmdline : List UInt8
  deriving DecidableEq

def NewJob.state (job : NewJob) : JobState := if job.bg then .bg else .fg

inductive Pc
  | prompt
  | evalBlock (bg : Bool) (cmdline : List UInt8)
  | evalFork (bg : Bool) (cmdline : List UInt8)
  | addCheck (job : NewJob)
  | addScan (job : NewJob) (i : Slot)
  | addPid (job : NewJob) (i : Slot)
  | addState (job : NewJob) (i : Slot)
  | addJid (job : NewJob) (i : Slot)
  | addWrap (job : NewJob) (i : Slot)
  | addCopy (job : NewJob) (i : Slot)
  | evalUnblock (job : NewJob)
  | evalWait (job : NewJob)
  | waitLookup (pid : Int)
  | waitState (i : Slot) (pid : Int)
  | waitPid (i : Slot) (pid : Int)
  | bgfgKill (fg : Bool) (i : Slot)
  | bgfgSet (fg : Bool) (i : Slot)
  | bgfgWait (i : Slot)
  | bgfgPrint (i : Slot)
  | halted
  deriving DecidableEq

structure State where
  table : JobTable
  pc : Pc
  blocked : List Signal
  inHandler : Bool
  /-- Pids returned by `fork` so far. -/
  forked : List Int
  status : Int → ChildStatus

inductive Change
  | stop
  | cont
  | exit
  | kill
  deriving DecidableEq

def Change.apply : Change → ChildStatus → Option ChildStatus
  | .stop, .running => some .stopped
  | .cont, .stopped | .cont, .reported => some .running
  | .exit, .running => some .exited
  | .kill, .running | .kill, .stopped | .kill, .reported => some .signaled
  | _, _ => none

inductive Event
  | line (argv : List (List UInt8)) (bg : Bool) (cmdline : List UInt8) (unset : Int)
  | eof
  | main
  | fork (answer : Option Int)
  | kill (ok : Bool)
  | sigchld
  | wait (pid : Int)
  | sigret
  | child (pid : Int) (change : Change)
  deriving DecidableEq

namespace State

/-! ## The main thread -/

/-- `eval` up to the end of `builtin_cmd`. -/
def evalLine (s : State) (argv : List (List UInt8)) (bg : Bool) (cmdline : List UInt8)
    (unset : Int) : Pc :=
  match argv with
  | [] => .prompt
  | name :: args =>
      if name = ascii ['q', 'u', 'i', 't'] then
        if s.table.jobsInBackgroundOrStopped = 1 then .prompt else .halted
      else if name = ascii ['j', 'o', 'b', 's'] then .prompt
      else if name = ascii ['f', 'g'] ∨ name = ascii ['b', 'g'] then
        match args with
        | [] => .prompt
        | arg :: _ =>
            match bgfgTarget s.table arg unset with
            | .exits => .halted
            | .returns => .prompt
            | .job i => .bgfgKill (name = ascii ['f', 'g']) i
      else .evalBlock bg cmdline

/-- One statement that waits for nothing outside; `none` where the main thread is at
a system call or has left. The signals that `eval` blocks are `mask`. -/
def mainStep (s : State) (mask : List Signal) : Option State :=
  match s.pc with
  | .evalBlock bg cmdline =>
      some { s with blocked := mask ++ s.blocked, pc := .evalFork bg cmdline }
  | .addCheck job => some { s with pc := if job.pid < 1 then .halted else .addScan job 0 }
  | .addScan job i =>
      some { s with pc :=
        if (s.table.jobs i).pid = 0 then .addPid job i
        else if h : i.val + 1 < MAXJOBS then .addScan job ⟨i.val + 1, h⟩ else .halted }
  | .addPid job i => some { s with table := s.table.setPid i job.pid, pc := .addState job i }
  | .addState job i => some { s with table := s.table.setState i job.state, pc := .addJid job i }
  | .addJid job i => some { s with table := s.table.takeJid i, pc := .addWrap job i }
  | .addWrap job i => some { s with table := s.table.wrapJid, pc := .addCopy job i }
  | .addCopy job i =>
      some { s with table := s.table.copyCmdline i job.cmdline, pc := .evalUnblock job }
  | .evalUnblock job =>
      some { s with blocked := s.blocked.filter (· ∉ mask), pc := .evalWait job }
  | .evalWait job => some { s with pc := if job.bg then .prompt else .waitLookup job.pid }
  | .waitLookup pid =>
      some { s with pc := match s.table.getjobpid pid with
        | none => .prompt
        | some i => .waitState i pid }
  | .waitState i pid =>
      some { s with pc := if (s.table.jobs i).state = .fg then .waitPid i pid else .prompt }
  | .waitPid i pid =>
      some { s with pc := if (s.table.jobs i).pid = pid then .waitState i pid else .prompt }
  | .bgfgSet fg i =>
      some { s with
        table := s.table.setState i (if fg then .fg else .bg)
        pc := if fg then .bgfgWait i else .bgfgPrint i }
  | .bgfgWait i => some { s with pc := .waitLookup (s.table.jobs i).pid }
  | .bgfgPrint _ => some { s with pc := .prompt }
  | .prompt | .evalFork _ _ | .bgfgKill _ _ | .halted => none

/-- `fork` fails, or answers with a pid that it has not returned before. -/
def forkStep (s : State) (answer : Option Int) : Option State :=
  match s.pc, answer with
  | .evalFork _ _, none => some { s with pc := .halted }
  | .evalFork bg cmdline, some pid =>
      if 0 < pid ∧ pid ∉ s.forked then
        some { s with
          forked := pid :: s.forked
          status := Function.update s.status pid .running
          pc := .addCheck ⟨pid, bg, cmdline⟩ }
      else none
  | _, _ => none

def killStep (s : State) (ok : Bool) : Option State :=
  match s.pc with
  | .bgfgKill fg i => some { s with pc := if ok then .bgfgSet fg i else .halted }
  | _ => none

/-! ## The handler -/

/-- One iteration of the loop, on the child that `waitpid` returned. -/
def waitStep (s : State) (pid : Int) : Option State :=
  if pid ∈ s.forked then
    match s.status pid with
    | .stopped =>
        match s.table.getjobpid pid with
        | none =>
            some { s with status := Function.update s.status pid .reported, inHandler := false }
        | some i =>
            some { s with
              status := Function.update s.status pid .reported
              table := s.table.setState i .st }
    | .exited | .signaled =>
        some { s with
          status := Function.update s.status pid .reaped
          table := (s.table.deletejob pid).1 }
    | .running | .reported | .reaped => none
  else none

/-! ## The children -/

def childStep (s : State) (pid : Int) (change : Change) : Option State :=
  if pid ∈ s.forked then
    (change.apply (s.status pid)).map fun c =>
      { s with status := Function.update s.status pid c }
  else none

/-! ## Steps -/

def step (s : State) (mask : List Signal) : Event → Option State
  | .line argv bg cmdline unset =>
      if s.pc = .prompt ∧ s.inHandler = false then
        some { s with pc := s.evalLine argv bg cmdline unset }
      else none
  | .eof => if s.pc = .prompt ∧ s.inHandler = false then some { s with pc := .halted } else none
  | .main => if s.inHandler = false then s.mainStep mask else none
  | .fork answer => if s.inHandler = false then s.forkStep answer else none
  | .kill ok => if s.inHandler = false then s.killStep ok else none
  | .sigchld =>
      if .sigchld ∉ s.blocked ∧ s.inHandler = false ∧ s.pc ≠ .halted then
        some { s with inHandler := true }
      else none
  | .wait pid => if s.inHandler = true then s.waitStep pid else none
  | .sigret =>
      if s.inHandler = true ∧ ∀ p ∈ s.forked, ¬ (s.status p).Waitable then
        some { s with inHandler := false }
      else none
  | .child pid change => s.childStep pid change

def AtPrompt (s : State) : Prop := s.pc = .prompt

def InWaitfg (s : State) : Prop :=
  match s.pc with
  | .waitLookup _ | .waitState _ _ | .waitPid _ _ => True
  | _ => False

end State

/-! ## What a step can be -/

theorem evalLine_cases (s : State) (argv : List (List UInt8)) (bg : Bool) (cmdline : List UInt8)
    (unset : Int) :
    s.evalLine argv bg cmdline unset = .prompt ∨ s.evalLine argv bg cmdline unset = .halted ∨
      s.evalLine argv bg cmdline unset = .evalBlock bg cmdline ∨
      ∃ arg fg k, bgfgTarget s.table arg unset = .job k ∧
        s.evalLine argv bg cmdline unset = .bgfgKill fg k := by
  unfold State.evalLine
  split
  next => exact Or.inl rfl
  next =>
    split
    next =>
      split
      · exact Or.inl rfl
      · exact Or.inr (Or.inl rfl)
    next =>
      split
      next => exact Or.inl rfl
      next =>
        split
        next =>
          split
          next => exact Or.inl rfl
          next arg _ =>
            split
            next => exact Or.inr (Or.inl rfl)
            next => exact Or.inl rfl
            next k htarget => exact Or.inr (Or.inr (Or.inr ⟨arg, _, k, htarget, rfl⟩))
        next => exact Or.inr (Or.inr (Or.inl rfl))

/-- Every step with the facts under which it is taken; the statements of the main
thread stay together. -/
inductive Moves (mask : List Signal) (s : State) : Event → State → Prop
  | line {argv bg cmdline unset} (hpc : s.pc = .prompt) :
      Moves mask s (.line argv bg cmdline unset)
        { s with pc := s.evalLine argv bg cmdline unset }
  | eof (hpc : s.pc = .prompt) : Moves mask s .eof { s with pc := .halted }
  | main {s'} (hin : s.inHandler = false) (hs : s.mainStep mask = some s') :
      Moves mask s .main s'
  | forkFail {bg cmdline} (hpc : s.pc = .evalFork bg cmdline) :
      Moves mask s (.fork none) { s with pc := .halted }
  | fork {bg cmdline pid} (hin : s.inHandler = false) (hpc : s.pc = .evalFork bg cmdline)
      (hpid : 0 < pid) (hnew : pid ∉ s.forked) :
      Moves mask s (.fork (some pid)) { s with
        forked := pid :: s.forked
        status := Function.update s.status pid .running
        pc := .addCheck ⟨pid, bg, cmdline⟩ }
  | kill {fg i ok} (hpc : s.pc = .bgfgKill fg i) :
      Moves mask s (.kill ok) { s with pc := if ok then .bgfgSet fg i else .halted }
  | sigchld (hblocked : .sigchld ∉ s.blocked) (hpc : s.pc ≠ .halted) :
      Moves mask s .sigchld { s with inHandler := true }
  | drop {pid} (hin : s.inHandler = true) (hmem : pid ∈ s.forked)
      (hstatus : s.status pid = .stopped)
      (hget : s.table.getjobpid pid = none) :
      Moves mask s (.wait pid) { s with
        status := Function.update s.status pid .reported, inHandler := false }
  | stop {pid i} (hin : s.inHandler = true) (hmem : pid ∈ s.forked)
      (hstatus : s.status pid = .stopped) (hget : s.table.getjobpid pid = some i) :
      Moves mask s (.wait pid) { s with
        status := Function.update s.status pid .reported
        table := s.table.setState i .st }
  | reap {pid} (hin : s.inHandler = true) (hmem : pid ∈ s.forked)
      (hstatus : s.status pid = .exited ∨ s.status pid = .signaled) :
      Moves mask s (.wait pid) { s with
        status := Function.update s.status pid .reaped
        table := (s.table.deletejob pid).1 }
  | sigret (hin : s.inHandler = true) : Moves mask s .sigret { s with inHandler := false }
  | child {pid change c} (hmem : pid ∈ s.forked) (happly : change.apply (s.status pid) = some c) :
      Moves mask s (.child pid change) { s with status := Function.update s.status pid c }

section Moves

variable {mask : List Signal} {s s' : State} {pid : Int}

theorem forkStep_moves {answer : Option Int} (hin : s.inHandler = false)
    (hs : s.forkStep answer = some s') : Moves mask s (.fork answer) s' := by
  unfold State.forkStep at hs
  split at hs
  next hpc =>
    cases hs
    exact .forkFail hpc
  next hpc =>
    split at hs
    next hnew =>
      cases hs
      exact .fork hin hpc hnew.1 hnew.2
    next => cases hs
  next => cases hs

theorem waitStep_moves (hin : s.inHandler = true) (hs : s.waitStep pid = some s') :
    Moves mask s (.wait pid) s' := by
  unfold State.waitStep at hs
  split at hs
  next hmem =>
    split at hs
    next hstatus =>
      split at hs
      next hget =>
        cases hs
        exact .drop hin hmem hstatus hget
      next hget =>
        cases hs
        exact .stop hin hmem hstatus hget
    next hstatus =>
      cases hs
      exact .reap hin hmem (Or.inl hstatus)
    next hstatus =>
      cases hs
      exact .reap hin hmem (Or.inr hstatus)
    next => cases hs
    next => cases hs
    next => cases hs
  next => cases hs

theorem step_moves {e : Event} (hs : s.step mask e = some s') : Moves mask s e s' := by
  cases e with
  | line argv bg cmdline unset =>
      simp only [State.step, Option.ite_none_right_eq_some, Option.some.injEq] at hs
      obtain ⟨⟨hpc, -⟩, rfl⟩ := hs
      exact .line hpc
  | eof =>
      simp only [State.step, Option.ite_none_right_eq_some, Option.some.injEq] at hs
      obtain ⟨⟨hpc, -⟩, rfl⟩ := hs
      exact .eof hpc
  | main =>
      simp only [State.step, Option.ite_none_right_eq_some] at hs
      exact .main hs.1 hs.2
  | fork answer =>
      simp only [State.step, Option.ite_none_right_eq_some] at hs
      exact forkStep_moves hs.1 hs.2
  | kill ok =>
      simp only [State.step, Option.ite_none_right_eq_some] at hs
      replace hs := hs.2
      unfold State.killStep at hs
      split at hs
      next hpc =>
        cases hs
        exact .kill hpc
      next => cases hs
  | sigchld =>
      simp only [State.step, Option.ite_none_right_eq_some, Option.some.injEq] at hs
      obtain ⟨⟨hblocked, -, hpc⟩, rfl⟩ := hs
      exact .sigchld hblocked hpc
  | wait pid =>
      simp only [State.step, Option.ite_none_right_eq_some] at hs
      exact waitStep_moves hs.1 hs.2
  | sigret =>
      simp only [State.step, Option.ite_none_right_eq_some, Option.some.injEq] at hs
      obtain ⟨⟨hin, -⟩, rfl⟩ := hs
      exact .sigret hin
  | child pid change =>
      simp only [State.step, State.childStep, Option.ite_none_right_eq_some,
        Option.map_eq_some_iff] at hs
      obtain ⟨hmem, c, happly, rfl⟩ := hs
      exact .child hmem happly

end Moves

/-- Runs start after `initjobs`, over any job array, with no child. -/
def shellMasking (mask : List Signal) : System State Event where
  init s := ∃ stale : JobTable, stale.nextjid = 1 ∧ s.table = stale.initjobs ∧ s.pc = .prompt ∧
    s.blocked = [] ∧ s.inHandler = false ∧ s.forked = []
  step s := s.step mask

/-- The shell of the source. -/
def shell : System State Event := shellMasking evalMask

/-! ## `addjob` undisturbed -/

section Addjob

variable (mask : List Signal) {s : State} {job : NewJob}

theorem step_main (hin : s.inHandler = false) :
    (shellMasking mask).step s .main = s.mainStep mask := if_pos hin

theorem run_addScan {k : Slot} (hin : s.inHandler = false) (hpc : s.pc = .addScan job k)
    (hfull : ∀ j, j < k → (s.table.jobs j).pid ≠ 0) (hpid : 0 < job.pid) :
    ∃ n, (shellMasking mask).run s (List.replicate n .main) =
      some { s with
        table := (s.table.addjob job.pid job.state job.cmdline).1
        pc := if (s.table.addjob job.pid job.state job.cmdline).2 = 0 then .halted
          else .evalUnblock job } := by
  have hone : ¬ job.pid < 1 := by omega
  induction hd : MAXJOBS - k.val generalizing s k with
  | zero => omega
  | succ d ih =>
      by_cases hk : (s.table.jobs k).pid = 0
      · -- the slot is free: the five assignments follow
        have hfirst : s.table.firstJob (fun job => job.pid == 0) = some k :=
          JobTable.firstJob_of_first (by simp [hk]) fun j hj => by simpa using hfull j hj
        refine ⟨6, ?_⟩
        simp [List.replicate, step_main, hin, hpc, State.mainStep, hk, JobTable.addjob, hfirst,
          hone]
      · by_cases hnext : k.val + 1 < MAXJOBS
        · obtain ⟨n, hn⟩ := ih (s := { s with pc := .addScan job ⟨k.val + 1, hnext⟩ }) hin rfl
            (fun j hj => by
              rcases Nat.lt_or_eq_of_le (Nat.le_of_lt_succ hj) with hlt | heq
              · exact hfull j hlt
              · exact Fin.ext heq ▸ hk) (by simp; omega)
          refine ⟨n + 1, ?_⟩
          rw [List.replicate_succ, System.run_cons, step_main mask hin]
          simp only [State.mainStep, hpc, if_neg hk, dif_pos hnext, Option.bind_some]
          exact hn
        · have hnone : s.table.firstJob (fun job => job.pid == 0) = none := by
            refine JobTable.firstJob_of_none fun j => ?_
            rcases Nat.lt_or_eq_of_le (show j.val ≤ k.val by omega) with hlt | heq
            · simpa using hfull j hlt
            · simpa using Fin.ext heq ▸ hk
          refine ⟨1, ?_⟩
          simp [List.replicate, step_main, hin, hpc, State.mainStep, hk, hnext, JobTable.addjob,
            hnone, hone]

/-- With no handler in between, the statements of `addjob` are the routine. -/
theorem run_addjob (hin : s.inHandler = false) (hpc : s.pc = .addCheck job) :
    ∃ n, (shellMasking mask).run s (List.replicate n .main) =
      some { s with
        table := (s.table.addjob job.pid job.state job.cmdline).1
        pc := if (s.table.addjob job.pid job.state job.cmdline).2 = 0 then .halted
          else .evalUnblock job } := by
  by_cases hpid : 0 < job.pid
  · have hone : ¬ job.pid < 1 := by omega
    obtain ⟨n, hn⟩ := run_addScan mask (s := { s with pc := .addScan job 0 }) hin rfl
      (fun j hj => (Nat.not_lt_zero j.val hj).elim) hpid
    refine ⟨n + 1, ?_⟩
    rw [List.replicate_succ, System.run_cons, step_main mask hin]
    simp only [State.mainStep, hpc, if_neg hone, Option.bind_some]
    exact hn
  · refine ⟨1, ?_⟩
    have hone : job.pid < 1 := by omega
    simp [List.replicate, step_main, hin, hpc, State.mainStep, JobTable.addjob, hone]

end Addjob

end CompOrg.Shell
