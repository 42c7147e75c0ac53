import CompOrg.Shell.Mirror

/-! # Handlers over handlers

`sigint_handler` and `sigtstp_handler` run over the main thread, over `sigchld_handler`
and over each other; a handler blocks its own signal only. Either handler looks the
foreground job up and then signals its group. If the group has no member, `kill` fails
and the handler leaves the shell through `unix_error`.

Between `waitpid` and `deletejob` the table lists a child that is gone, so an iteration
of `sigchld_handler` is two steps here. A child is in its own group from its `setpgrp`
until it is reaped; what the children fork themselves could only keep a group alive
for longer.
-/

namespace CompOrg.Shell

/-! ## `waitpid` and the rest of the iteration -/

/-- `waitpid(-1, &status, WNOHANG|WUNTRACED)`, if it returns this child. -/
def State.waitpid (s : State) (pid : Int) : Option (State × ChildStatus) :=
  if pid ∈ s.forked then
    match s.status pid with
    | .stopped => some ({ s with status := Function.update s.status pid .reported }, .stopped)
    | .exited => some ({ s with status := Function.update s.status pid .reaped }, .exited)
    | .signaled => some ({ s with status := Function.update s.status pid .reaped }, .signaled)
    | .running | .reported | .reaped => none
  else none

/-- The body of the loop of `sigchld_handler`. -/
def State.record (s : State) (pid : Int) (status : ChildStatus) : State :=
  match status with
  | .stopped =>
      match s.table.getjobpid pid with
      | none => { s with inHandler := false }
      | some i => { s with table := s.table.setState i .st }
  | .exited | .signaled => { s with table := (s.table.deletejob pid).1 }
  | .running | .reported | .reaped => s

theorem waitStep_eq (s : State) (pid : Int) :
    s.waitStep pid = (s.waitpid pid).map fun r => r.1.record pid r.2 := by
  unfold State.waitStep State.waitpid
  split
  next =>
    cases hstatus : s.status pid with
    | stopped =>
        dsimp only [Option.map_some, State.record]
        cases s.table.getjobpid pid <;> rfl
    | exited | signaled => rfl
    | running | reported | reaped => rfl
  next => rfl

/-! ## States -/

inductive Key
  | sigint
  | sigtstp
  deriving DecidableEq

/-- `SIGINT` is in no mask of the source. -/
def Key.blocked (mask : List Signal) : Key → Bool
  | .sigint => false
  | .sigtstp => mask.contains .sigtstp

/-- An active handler; `pid` is what `fgpid` has returned to it. -/
inductive Handler
  | sigchld
  | key (key : Key) (pid : Option Int)
  deriving DecidableEq

def Handler.handles (key : Key) : Handler → Bool
  | .sigchld => false
  | .key key' _ => key' = key

structure Nested where
  shell : State
  /-- The innermost handler comes first. -/
  handlers : List Handler
  /-- What `waitpid` has returned, until the loop body is through with it. -/
  taken : Option (Int × ChildStatus)
  /-- The children that have executed `setpgrp`. -/
  grouped : List Int
  /-- A keyboard handler has called `unix_error`. -/
  terminated : Bool

inductive NestedEvent
  | thread (e : Event)
  | child (pid : Int) (change : Change)
  | setpgrp (pid : Int)
  | sigchld
  | waitpid (pid : Int)
  | record
  | sigret
  | key (key : Key)
  | fgpid
  | kill
  deriving DecidableEq

/-- A statement of the main thread. -/
def Event.OfThread : Event → Bool
  | .line _ _ _ _ | .eof | .main | .fork _ | .kill _ => true
  | .sigchld | .wait _ | .sigret | .child _ _ => false

namespace Nested

/-- The child is a member of the group with its pid; a zombie still is. -/
def Member (s : Nested) (pid : Int) : Prop :=
  pid ∈ s.grouped ∧ pid ∈ s.shell.forked ∧ s.shell.status pid ≠ .reaped

instance (s : Nested) (pid : Int) : Decidable (s.Member pid) :=
  inferInstanceAs (Decidable (_ ∧ _ ∧ _))

def fgpidStep (s : Nested) : Option Nested :=
  match s.handlers with
  | .key key none :: rest =>
      some { s with handlers := .key key (some s.shell.table.fgpid) :: rest }
  | _ => none

/-- `kill(-pid, ..)`, or the message where no job is in the foreground. -/
def killStep (s : Nested) : Option Nested :=
  match s.handlers with
  | .key _ (some pid) :: rest =>
      if 0 < pid ∧ ¬ s.Member pid then some { s with terminated := true }
      else some { s with handlers := rest }
  | _ => none

def waitpidStep (s : Nested) (pid : Int) : Option Nested :=
  match s.handlers, s.taken with
  | .sigchld :: _, none =>
      (s.shell.waitpid pid).map fun r => { s with shell := r.1, taken := some (pid, r.2) }
  | _, _ => none

def recordStep (s : Nested) : Option Nested :=
  match s.handlers, s.taken with
  | .sigchld :: rest, some (pid, status) =>
      some { s with
        shell := s.shell.record pid status
        handlers := if (s.shell.record pid status).inHandler then s.handlers else rest
        taken := none }
  | _, _ => none

def step (s : Nested) (mask : List Signal) (e : NestedEvent) : Option Nested :=
  if s.terminated then none
  else
    match e with
    | .thread e =>
        if s.handlers = [] ∧ e.OfThread then
          (s.shell.step mask e).map fun shell => { s with shell := shell }
        else none
    | .child pid change =>
        (s.shell.childStep pid change).map fun shell => { s with shell := shell }
    | .setpgrp pid =>
        if pid ∈ s.shell.forked ∧ s.shell.status pid = .running then
          some { s with grouped := pid :: s.grouped }
        else none
    | .sigchld =>
        (s.shell.step mask .sigchld).map fun shell =>
          { s with shell := shell, handlers := .sigchld :: s.handlers }
    | .waitpid pid => s.waitpidStep pid
    | .record => s.recordStep
    | .sigret =>
        match s.handlers, s.taken with
        | .sigchld :: rest, none =>
            (s.shell.step mask .sigret).map fun shell =>
              { s with shell := shell, handlers := rest }
        | _, _ => none
    | .key key =>
        if s.shell.pc ≠ .halted ∧ key.blocked s.shell.blocked = false ∧
            s.handlers.any (·.handles key) = false then
          some { s with handlers := .key key none :: s.handlers }
        else none
    | .fgpid => s.fgpidStep
    | .kill => s.killStep

end Nested

def nestedShell : System Nested NestedEvent where
  init s := shell.init s.shell ∧ s.handlers = [] ∧ s.taken = none ∧ s.grouped = [] ∧
    s.terminated = false
  step s := s.step evalMask

/-! ## What a step can be -/

theorem waitpid_cases {s : State} {pid : Int} {r : State × ChildStatus}
    (h : s.waitpid pid = some r) : pid ∈ s.forked ∧
      (s.status pid = .stopped ∧
          r = ({ s with status := Function.update s.status pid .reported }, .stopped) ∨
        (s.status pid = .exited ∨ s.status pid = .signaled) ∧
          r = ({ s with status := Function.update s.status pid .reaped }, s.status pid)) := by
  unfold State.waitpid at h
  split at h
  next hmem =>
    cases hstatus : s.status pid with
    | stopped =>
        rw [hstatus] at h
        cases h
        exact ⟨hmem, Or.inl ⟨rfl, rfl⟩⟩
    | exited =>
        rw [hstatus] at h
        cases h
        exact ⟨hmem, Or.inr ⟨Or.inl rfl, rfl⟩⟩
    | signaled =>
        rw [hstatus] at h
        cases h
        exact ⟨hmem, Or.inr ⟨Or.inr rfl, rfl⟩⟩
    | running | reported | reaped =>
        rw [hstatus] at h
        cases h
  next => cases h

/-- Every step with the facts under which it is taken. -/
inductive NestedMoves (mask : List Signal) (s : Nested) : NestedEvent → Nested → Prop
  | thread {e shell} (hframes : s.handlers = []) (he : e.OfThread = true)
      (hs : s.shell.step mask e = some shell) :
      NestedMoves mask s (.thread e) { s with shell := shell }
  | child {pid change shell} (hs : s.shell.step mask (.child pid change) = some shell) :
      NestedMoves mask s (.child pid change) { s with shell := shell }
  | setpgrp {pid} : NestedMoves mask s (.setpgrp pid) { s with grouped := pid :: s.grouped }
  | sigchld {shell} (hs : s.shell.step mask .sigchld = some shell) :
      NestedMoves mask s .sigchld
        { s with shell := shell, handlers := .sigchld :: s.handlers }
  | waitpid {pid rest r} (hframes : s.handlers = .sigchld :: rest) (htaken : s.taken = none)
      (hs : s.shell.waitpid pid = some r) :
      NestedMoves mask s (.waitpid pid) { s with shell := r.1, taken := some (pid, r.2) }
  | record {rest pid status} (hframes : s.handlers = .sigchld :: rest)
      (htaken : s.taken = some (pid, status)) :
      NestedMoves mask s .record { s with
        shell := s.shell.record pid status
        handlers := if (s.shell.record pid status).inHandler then s.handlers else rest
        taken := none }
  | sigret {rest shell} (hframes : s.handlers = .sigchld :: rest) (htaken : s.taken = none)
      (hs : s.shell.step mask .sigret = some shell) :
      NestedMoves mask s .sigret { s with shell := shell, handlers := rest }
  | key {key} (hpc : s.shell.pc ≠ .halted) :
      NestedMoves mask s (.key key) { s with handlers := .key key none :: s.handlers }
  | fgpid {key rest} (hframes : s.handlers = .key key none :: rest) :
      NestedMoves mask s .fgpid
        { s with handlers := .key key (some s.shell.table.fgpid) :: rest }
  | killFails {key pid rest} (hframes : s.handlers = .key key (some pid) :: rest)
      (hpid : 0 < pid) (hmember : ¬ s.Member pid) :
      NestedMoves mask s .kill { s with terminated := true }
  | kill {key pid rest} (hframes : s.handlers = .key key (some pid) :: rest)
      (hmember : 0 < pid → s.Member pid) :
      NestedMoves mask s .kill { s with handlers := rest }

section NestedMoves

variable {mask : List Signal} {s s' : Nested} {pid : Int}

theorem fgpidStep_moves (hs : s.fgpidStep = some s') : NestedMoves mask s .fgpid s' := by
  unfold Nested.fgpidStep at hs
  split at hs
  next hframes =>
    cases hs
    exact .fgpid hframes
  next => cases hs

theorem killStep_moves (hs : s.killStep = some s') : NestedMoves mask s .kill s' := by
  unfold Nested.killStep at hs
  split at hs
  next hframes =>
    split at hs
    next hfails =>
      cases hs
      exact .killFails hframes hfails.1 hfails.2
    next hfails =>
      cases hs
      exact .kill hframes fun hpid => not_not.mp fun hmember => hfails ⟨hpid, hmember⟩
  next => cases hs

theorem waitpidStep_moves (hs : s.waitpidStep pid = some s') :
    NestedMoves mask s (.waitpid pid) s' := by
  unfold Nested.waitpidStep at hs
  split at hs
  next hframes htaken =>
    obtain ⟨r, hr, rfl⟩ := Option.map_eq_some_iff.mp hs
    exact .waitpid hframes htaken hr
  next => cases hs

theorem recordStep_moves (hs : s.recordStep = some s') : NestedMoves mask s .record s' := by
  unfold Nested.recordStep at hs
  split at hs
  next hframes htaken =>
    cases hs
    exact .record hframes htaken
  next => cases hs

theorem nestedStep_moves {e : NestedEvent} (hs : s.step mask e = some s') :
    s.terminated = false ∧ NestedMoves mask s e s' := by
  unfold Nested.step at hs
  split at hs
  next => cases hs
  next hterm =>
    refine ⟨by simpa using hterm, ?_⟩
    cases e with
    | thread e =>
        simp only [Option.ite_none_right_eq_some, Option.map_eq_some_iff] at hs
        obtain ⟨⟨hframes, he⟩, shell, hshell, rfl⟩ := hs
        exact .thread hframes he hshell
    | child pid change =>
        obtain ⟨shell, hshell, rfl⟩ := Option.map_eq_some_iff.mp hs
        exact .child hshell
    | setpgrp pid =>
        simp only [Option.ite_none_right_eq_some, Option.some.injEq] at hs
        obtain ⟨-, rfl⟩ := hs
        exact .setpgrp
    | sigchld =>
        obtain ⟨shell, hshell, rfl⟩ := Option.map_eq_some_iff.mp hs
        exact .sigchld hshell
    | waitpid pid => exact waitpidStep_moves hs
    | record => exact recordStep_moves hs
    | sigret =>
        dsimp only at hs
        split at hs
        next hframes htaken =>
          obtain ⟨shell, hshell, rfl⟩ := Option.map_eq_some_iff.mp hs
          exact .sigret hframes htaken hshell
        next => cases hs
    | key key =>
        simp only [Option.ite_none_right_eq_some, Option.some.injEq] at hs
        obtain ⟨⟨hpc, -⟩, rfl⟩ := hs
        exact .key hpc
    | fgpid => exact fgpidStep_moves hs
    | kill => exact killStep_moves hs

theorem nested_moves {e : NestedEvent} (hs : nestedShell.step s e = some s') :
    NestedMoves evalMask s e s' := (nestedStep_moves hs).2

end NestedMoves

/-! ## What holds between any two steps -/

def Handler.pid : Handler → Option Int
  | .sigchld => none
  | .key _ pid => pid

namespace Nested

/-- A keyboard handler has looked the child up and has not signalled it yet. -/
def Held (s : Nested) (pid : Int) : Prop := 0 < pid ∧ ∃ h ∈ s.handlers, h.pid = some pid

instance (s : Nested) (pid : Int) : Decidable (s.Held pid) :=
  inferInstanceAs (Decidable (_ ∧ _))

end Nested

structure NestedInv (s : Nested) : Prop where
  shell : Inv s.shell
  running : s.handlers ≠ [] → s.shell.pc ≠ .halted
  inside : s.handlers.count .sigchld = if s.shell.inHandler then 1 else 0
  taken : s.taken ≠ none → s.shell.inHandler = true
  held : ∀ p, s.Held p → p ∈ s.shell.forked

section NestedInv

variable {mask : List Signal} {s s' : Nested} {pid : Int}

theorem held_of_subset (hsub : ∀ h ∈ s'.handlers, h.pid ≠ none → h ∈ s.handlers)
    (hheld : s'.Held pid) : s.Held pid := by
  obtain ⟨hpos, h, hh, hpid⟩ := hheld
  exact ⟨hpos, h, hsub h hh (by simp [hpid]), hpid⟩

/-- A handler without a pid on top holds nobody. -/
theorem held_cons {h : Handler} (hpid : h.pid = none) (hframes : s'.handlers = h :: s.handlers) :
    s'.Held pid ↔ s.Held pid := by
  constructor
  · apply held_of_subset
    intro f hf hheld
    rcases List.mem_cons.mp (hframes ▸ hf) with rfl | hf
    · exact (hheld hpid).elim
    · exact hf
  · apply held_of_subset
    intro f hf _
    exact hframes ▸ List.mem_cons_of_mem h hf

theorem held_nil (hframes : s.handlers = []) : ¬ s.Held pid := by
  rintro ⟨-, h, hh, -⟩
  simp [hframes] at hh

theorem NestedInv.inHandler (h : NestedInv s) {rest : List Handler}
    (hframes : s.handlers = .sigchld :: rest) : s.shell.inHandler = true := by
  have hinside := h.inside
  rw [hframes, List.count_cons_self] at hinside
  by_contra hout
  rw [if_neg hout] at hinside
  omega

theorem NestedInv.count_rest (h : NestedInv s) {rest : List Handler}
    (hframes : s.handlers = .sigchld :: rest) : rest.count .sigchld = 0 := by
  have hinside := h.inside
  rw [hframes, List.count_cons_self, if_pos (h.inHandler hframes)] at hinside
  omega

theorem NestedInv.outside (h : NestedInv s) (hframes : s.handlers = []) :
    s.shell.inHandler = false := by
  have hinside := h.inside
  rw [hframes] at hinside
  by_contra hin
  simp [hin] at hinside

/-! ### Statements of the main thread -/

theorem mainStep_inHandler {s s' : State} (hs : s.mainStep mask = some s') :
    s'.inHandler = s.inHandler := by
  unfold State.mainStep at hs
  cases hpc : s.pc <;> rw [hpc] at hs <;> cases hs <;> rfl

theorem thread_inHandler {s s' : State} {e : Event} (he : e.OfThread = true)
    (hs : s.step mask e = some s') : s'.inHandler = s.inHandler := by
  cases step_moves hs with
  | main hin hs => exact mainStep_inHandler hs
  | line | eof | forkFail | fork | kill => rfl
  | sigchld | drop | stop | reap | sigret | child => simp [Event.OfThread] at he

/-! ### The handler of `SIGCHLD` -/

theorem record_shrinks {s : State} (hd : s.table.Distinct) (pid : Int) (status : ChildStatus) :
    Shrinks s.table (s.record pid status).table := by
  have hrefl : Shrinks s.table s.table := ⟨fun _ => Or.inl rfl, fun _ h => h⟩
  cases status with
  | stopped =>
      unfold State.record
      dsimp only
      split
      · exact hrefl
      · exact shrinks_stopped s.table _
  | exited | signaled =>
      by_cases hpid : 0 < pid
      · exact shrinks_deletejob hd hpid
      · have hsame : (s.table.deletejob pid).1 = s.table :=
          JobTable.deletejob_of_lt_one (by omega)
        unfold State.record
        dsimp only
        rw [hsame]
        exact hrefl
  | running | reported | reaped => exact hrefl

theorem record_same (s : State) (pid : Int) (status : ChildStatus) :
    (s.record pid status).pc = s.pc ∧ (s.record pid status).forked = s.forked ∧
      (s.record pid status).status = s.status := by
  unfold State.record
  split
  next => split <;> exact ⟨rfl, rfl, rfl⟩
  next => exact ⟨rfl, rfl, rfl⟩
  next => exact ⟨rfl, rfl, rfl⟩
  next => exact ⟨rfl, rfl, rfl⟩
  next => exact ⟨rfl, rfl, rfl⟩
  next => exact ⟨rfl, rfl, rfl⟩

theorem Inv.record {s : State} (h : Inv s) (pid : Int) (status : ChildStatus) :
    Inv (s.record pid status) := by
  obtain ⟨hpc, hforked, -⟩ := record_same s pid status
  exact h.shrink (record_shrinks h.distinct pid status) hforked hpc

theorem waitpid_same {s : State} {r : State × ChildStatus} (hs : s.waitpid pid = some r) :
    r.1.table = s.table ∧ r.1.pc = s.pc ∧ r.1.forked = s.forked ∧
      r.1.inHandler = s.inHandler ∧ r.1.blocked = s.blocked := by
  obtain ⟨-, ⟨-, rfl⟩ | ⟨-, rfl⟩⟩ := waitpid_cases hs <;> exact ⟨rfl, rfl, rfl, rfl, rfl⟩

theorem Inv.waitpid {s : State} {r : State × ChildStatus} (h : Inv s)
    (hs : s.waitpid pid = some r) : Inv r.1 := by
  obtain ⟨htable, hpc, hforked, -⟩ := waitpid_same hs
  apply h.shrink _ hforked hpc
  rw [htable]
  exact ⟨fun _ => Or.inl rfl, fun _ hi => hi⟩

/-- `fgpid` answers with the pid of an entry. -/
theorem fgpid_listed {t : JobTable} (h : 0 < t.fgpid) : ∃ i, (t.jobs i).pid = t.fgpid := by
  unfold JobTable.fgpid at h ⊢
  split
  next i _ => exact ⟨i, rfl⟩
  next hnone =>
    rw [hnone] at h
    simp at h

theorem Inv.fgpid_forked {s : State} (h : Inv s) (hpos : 0 < s.table.fgpid) :
    s.table.fgpid ∈ s.forked := by
  obtain ⟨i, hi⟩ := fgpid_listed hpos
  have hlisted := h.listed i (by omega)
  rwa [hi] at hlisted

/-! ### Steps -/

theorem child_same {s s' : State} {change : Change}
    (hs : s.step mask (.child pid change) = some s') :
    ∃ c, s.status pid ≠ .reaped ∧ c ≠ .reaped ∧
      s' = { s with status := Function.update s.status pid c } := by
  cases step_moves hs with
  | child hmem happly =>
      have hne := Change.apply_ne_reaped happly
      exact ⟨_, hne.1, hne.2, rfl⟩

theorem sigchld_same {s s' : State} (hs : s.step mask .sigchld = some s') :
    s.inHandler = false ∧ s.pc ≠ .halted ∧ s' = { s with inHandler := true } := by
  simp only [State.step, Option.ite_none_right_eq_some, Option.some.injEq] at hs
  obtain ⟨⟨-, hin, hpc⟩, rfl⟩ := hs
  exact ⟨hin, hpc, rfl⟩

theorem sigret_same {s s' : State} (hs : s.step mask .sigret = some s') :
    s' = { s with inHandler := false } := by
  cases step_moves hs with
  | sigret => rfl

/-- A step that takes the shell to `s'.shell` and returns from some handlers. -/
theorem NestedInv.pop (h : NestedInv s) (hshell : Inv s'.shell)
    (hpc : s'.shell.pc = s.shell.pc) (hforked : s'.shell.forked = s.shell.forked)
    (hsub : ∀ h ∈ s'.handlers, h ∈ s.handlers)
    (hinside : s'.handlers.count .sigchld = if s'.shell.inHandler then 1 else 0)
    (htaken : s'.taken ≠ none → s'.shell.inHandler = true) : NestedInv s' where
  shell := hshell
  running hframes := by
    obtain ⟨f, hf⟩ := List.exists_mem_of_ne_nil _ hframes
    rw [hpc]
    exact h.running (List.ne_nil_of_mem (hsub f hf))
  inside := hinside
  taken := htaken
  held p hp := by
    rw [hforked]
    exact h.held p (held_of_subset (fun f hf _ => hsub f hf) hp)

theorem nestedMoves_inv {e : NestedEvent} (h : NestedInv s) (hm : NestedMoves mask s e s') :
    NestedInv s' := by
  cases hm with
  | @thread e shell hframes he hs =>
      have hin := thread_inHandler he hs
      refine ⟨moves_inv h.shell (step_moves hs), fun hne => (hne hframes).elim, ?_, ?_, ?_⟩
      · rw [hin]
        exact h.inside
      · intro htaken
        rw [hin]
        exact h.taken htaken
      · intro p hp
        exact (held_nil hframes hp).elim
  | child hs =>
      have hshell := moves_inv h.shell (step_moves hs)
      obtain ⟨c, -, -, rfl⟩ := child_same hs
      exact h.pop hshell rfl rfl (fun _ hf => hf) h.inside h.taken
  | setpgrp => exact h.pop h.shell rfl rfl (fun _ hf => hf) h.inside h.taken
  | sigchld hs =>
      have hshell := moves_inv h.shell (step_moves hs)
      obtain ⟨hin, hpc, rfl⟩ := sigchld_same hs
      refine ⟨hshell, fun _ => hpc, ?_, fun _ => rfl, ?_⟩
      · have hnone := h.inside
        rw [hin] at hnone
        rw [List.count_cons_self, hnone]
        rfl
      · intro p hp
        exact h.held p ((held_cons rfl rfl).mp hp)
  | waitpid hframes htaken hs =>
      obtain ⟨-, hpc, hforked, hin, -⟩ := waitpid_same hs
      have hinside := h.inHandler hframes
      refine h.pop (h.shell.waitpid hs) hpc hforked (fun _ hf => hf) ?_ fun _ => ?_
      · rw [hin]
        exact h.inside
      · exact hin.trans hinside
  | @record rest pid status hframes htaken =>
      obtain ⟨hpc, hforked, -⟩ := record_same s.shell pid status
      refine h.pop (h.shell.record pid status) hpc hforked (fun f hf => ?_) ?_
        fun htaken => (htaken rfl).elim
      · dsimp only at hf
        split at hf
        · exact hf
        · exact hframes ▸ List.mem_cons_of_mem _ hf
      · dsimp only
        split
        · rw [h.inside, if_pos (h.inHandler hframes)]
        · exact h.count_rest hframes
  | sigret hframes htaken hs =>
      have hshell := moves_inv h.shell (step_moves hs)
      rw [sigret_same hs] at hshell ⊢
      refine h.pop hshell rfl rfl (fun f hf => hframes ▸ List.mem_cons_of_mem _ hf)
        (h.count_rest hframes) fun hne => (hne htaken).elim
  | key hpc =>
      refine ⟨h.shell, fun _ => hpc, ?_, h.taken, fun p hp => ?_⟩
      · rw [List.count_cons_of_ne (by simp)]
        exact h.inside
      · exact h.held p ((held_cons rfl rfl).mp hp)
  | @fgpid key rest hframes =>
      refine ⟨h.shell, fun _ => h.running (by simp [hframes]), ?_, h.taken, fun p hp => ?_⟩
      · have hinside := h.inside
        rw [hframes, List.count_cons_of_ne (by simp)] at hinside
        rw [List.count_cons_of_ne (by simp)]
        exact hinside
      · obtain ⟨hpos, f, hf, hpid⟩ := hp
        rcases List.mem_cons.mp hf with rfl | hf
        · obtain rfl := Option.some.inj hpid
          exact h.shell.fgpid_forked hpos
        · exact h.held p ⟨hpos, f, hframes ▸ List.mem_cons_of_mem _ hf, hpid⟩
  | killFails => exact h.pop h.shell rfl rfl (fun _ hf => hf) h.inside h.taken
  | @kill key pid rest hframes hmember =>
      refine h.pop h.shell rfl rfl (fun f hf => hframes ▸ List.mem_cons_of_mem _ hf) ?_ h.taken
      have hinside := h.inside
      rw [hframes, List.count_cons_of_ne (by simp)] at hinside
      exact hinside

theorem init_nestedInv (h : nestedShell.init s) : NestedInv s := by
  obtain ⟨hshell, hframes, htaken, -, -⟩ := h
  have hin : s.shell.inHandler = false := by
    obtain ⟨_, -, -, -, -, hin, -⟩ := hshell
    exact hin
  refine ⟨init_inv hshell, fun hne => (hne hframes).elim, ?_, fun hne => (hne htaken).elim, ?_⟩
  · rw [hframes, hin]
    rfl
  · intro p hp
    exact (held_nil hframes hp).elim

end NestedInv

/-! ## Iterations in one step -/

/-- The shell as if the loop body had followed `waitpid` at once. -/
def Nested.atomic (s : Nested) : State :=
  match s.taken with
  | none => s.shell
  | some (pid, status) => s.shell.record pid status

/-- The event of the shell whose iterations are single steps. -/
def NestedEvent.atomic : NestedEvent → Option Event
  | .thread e => some e
  | .child pid change => some (.child pid change)
  | .sigchld => some .sigchld
  | .waitpid pid => some (.wait pid)
  | .sigret => some .sigret
  | .setpgrp _ | .record | .key _ | .fgpid | .kill => none

section Atomic

variable {s s' : Nested} {pid : Int}

theorem NestedInv.taken_none (h : NestedInv s) (hin : s.shell.inHandler = false) :
    s.taken = none := by
  by_contra hne
  simp [h.taken hne] at hin

theorem atomic_of_none (h : s.taken = none) : s.atomic = s.shell := by
  unfold Nested.atomic
  rw [h]

/-- Between `waitpid` and the loop body the children go on as they would after it. -/
theorem record_child {s s' : State} {mask : List Signal} {change : Change} (q : Int)
    (status : ChildStatus) (hs : s.step mask (.child pid change) = some s') :
    (s.record q status).step mask (.child pid change) = some (s'.record q status) := by
  obtain ⟨-, hforked, hstatus⟩ := record_same s q status
  simp only [State.step, State.childStep, Option.ite_none_right_eq_some,
    Option.map_eq_some_iff] at hs
  obtain ⟨hmem, c, happly, rfl⟩ := hs
  simp only [State.step, State.childStep, hforked, hstatus, if_pos hmem, happly, Option.map_some,
    Option.some.injEq]
  unfold State.record
  cases status with
  | stopped =>
      dsimp only
      cases s.table.getjobpid q <;> rfl
  | exited | signaled | running | reported | reaped => rfl

theorem atomic_simulates :
    nestedShell.Simulates shell Nested.atomic NestedEvent.atomic NestedInv := by
  intro s e s' h hstep
  cases nested_moves hstep with
  | thread hframes he hs =>
      have htaken := h.taken_none (h.outside hframes)
      dsimp only [NestedEvent.atomic, Nested.atomic]
      rw [htaken]
      exact hs
  | child hs =>
      dsimp only [NestedEvent.atomic, Nested.atomic]
      cases s.taken with
      | none => exact hs
      | some r => exact record_child r.1 r.2 hs
  | sigchld hs =>
      have htaken := h.taken_none (sigchld_same hs).1
      dsimp only [NestedEvent.atomic, Nested.atomic]
      rw [htaken]
      exact hs
  | @waitpid pid rest r hframes htaken hs =>
      dsimp only [NestedEvent.atomic]
      rw [atomic_of_none htaken]
      change (if s.shell.inHandler = true then s.shell.waitStep pid else none) = _
      rw [if_pos (h.inHandler hframes), waitStep_eq, hs]
      rfl
  | sigret hframes htaken hs =>
      dsimp only [NestedEvent.atomic, Nested.atomic]
      rw [htaken]
      exact hs
  | record hframes htaken =>
      change s.shell.record _ _ = s.atomic
      unfold Nested.atomic
      rw [htaken]
  | setpgrp | key | fgpid | killFails | kill => rfl

/-- Keyboard handlers and split iterations lead to no table that the shell without them
does not reach. -/
theorem nested_refines (h : nestedShell.Reachable s) : shell.Reachable s.atomic := by
  obtain ⟨s₀, es, hinit, hrun⟩ := h
  have hinv : ∀ s e t, NestedInv s → nestedShell.step s e = some t → NestedInv t :=
    fun _ _ _ h hs => nestedMoves_inv h (nested_moves hs)
  refine ⟨s₀.atomic, es.filterMap NestedEvent.atomic, ?_,
    atomic_simulates.run hinv (init_nestedInv hinit) hrun⟩
  rw [atomic_of_none hinit.2.2.1]
  exact hinit.1

end Atomic

end CompOrg.Shell
