import CompOrg.Shell.BgFg
import CompOrg.Shell.EmptySlots
import CompOrg.Shell.Mirror

/-! # The list of jobs

`jobs` walks over the table while the handler clears and stops entries under it. Between
two of its statements a job can go, so that a line may begin with one entry and end with
an empty one. At the prompt every other line is one of a running or a stopped job. What
is listed is also what keeps `quit` from leaving.
-/

namespace CompOrg.Shell

/-! ## A listed job has a state -/

/-- An entry is without a state only between the first two assignments of `addjob`. -/
def Filled (s : State) : Prop :=
  ∀ i, (s.table.jobs i).pid ≠ 0 → (s.table.jobs i).state = .undef → ∃ job, s.pc = .addState job i

variable {s s' t u : State} {mask : List Signal} {pid : Int} {i : Slot}

theorem NewJob.state_ne_undef (job : NewJob) : job.state ≠ .undef := by
  unfold NewJob.state
  split <;> simp

/-- A step that changes neither pids nor states and does not come from that place. -/
theorem Filled.goto (h : Filled s) (htable : SameJobs s.table s'.table)
    (hpc : ∀ job i, s.pc ≠ .addState job i) : Filled s' := by
  intro i hi hstate
  rw [(htable i).1] at hi
  rw [(htable i).2] at hstate
  obtain ⟨job, hjob⟩ := h i hi hstate
  exact (hpc job i hjob).elim

/-- A step of the handler or of a child. -/
theorem Filled.shrink (h : Filled s) (hpc : s'.pc = s.pc)
    (hentry : ∀ i, (s'.table.jobs i).pid ≠ 0 → (s'.table.jobs i).state = .undef →
      (s.table.jobs i).pid ≠ 0 ∧ (s.table.jobs i).state = .undef) : Filled s' := by
  intro i hi hstate
  rw [hpc]
  obtain ⟨hi, hstate⟩ := hentry i hi hstate
  exact h i hi hstate

theorem mainStep_filled (h : Filled s) (hs : s.mainStep mask = some s') : Filled s' := by
  unfold State.mainStep at hs
  cases hpc : s.pc with
  | addPid job k =>
      rw [hpc] at hs
      cases hs
      intro i hi hstate
      rw [s.table.setPid_pid] at hi
      rw [s.table.setPid_state] at hstate
      split at hi
      next hik => exact ⟨job, hik ▸ rfl⟩
      next =>
        obtain ⟨_, hadd⟩ := h i hi hstate
        rw [hpc] at hadd
        cases hadd
  | addState job k =>
      rw [hpc] at hs
      cases hs
      intro i hi hstate
      rw [s.table.setState_pid] at hi
      rw [s.table.setState_state] at hstate
      split at hstate
      next => exact (job.state_ne_undef hstate).elim
      next hik =>
        -- the slot that had no state is the one that gets it
        obtain ⟨_, hadd⟩ := h i hi hstate
        rw [hpc] at hadd
        cases hadd
        exact (hik rfl).elim
  | bgfgSet fg k =>
      rw [hpc] at hs
      cases hs
      intro i hi hstate
      rw [s.table.setState_pid] at hi
      rw [s.table.setState_state] at hstate
      split at hstate
      next => cases fg <;> simp at hstate
      next =>
        obtain ⟨_, hadd⟩ := h i hi hstate
        rw [hpc] at hadd
        cases hadd
  | addJid job k =>
      rw [hpc] at hs
      cases hs
      exact h.goto (sameJobs_takeJid _ k) (by simp [hpc])
  | addWrap job k =>
      rw [hpc] at hs
      cases hs
      exact h.goto (sameJobs_wrapJid _) (by simp [hpc])
  | addCopy job k =>
      rw [hpc] at hs
      cases hs
      exact h.goto (sameJobs_copyCmdline _ k _) (by simp [hpc])
  | evalBlock bg cmdline | addCheck job | addScan job i | evalUnblock job | evalWait job
  | waitLookup pid | waitState i pid | waitPid i pid | bgfgWait i | bgfgPrint i =>
      rw [hpc] at hs
      cases hs
      exact h.goto (SameJobs.refl _) (by simp [hpc])
  | prompt | evalFork bg cmdline | bgfgKill fg i | halted =>
      rw [hpc] at hs
      cases hs

theorem moves_filled {e : Event} (hinv : Inv s) (h : Filled s) (hm : Moves mask s e s') :
    Filled s' := by
  cases hm with
  | line hpc | eof hpc | forkFail hpc | fork _ hpc | kill hpc =>
      exact h.goto (SameJobs.refl _) (by simp [hpc])
  | main hin hs => exact mainStep_filled h hs
  | sigchld | sigret | drop | child => exact h.shrink rfl fun _ hi hstate => ⟨hi, hstate⟩
  | @stop pid k =>
      refine h.shrink rfl fun i hi hstate => ?_
      rw [s.table.setState_pid] at hi
      rw [s.table.setState_state] at hstate
      split at hstate
      next => simp at hstate
      next => exact ⟨hi, hstate⟩
  | @reap pid hin hmem =>
      refine h.shrink rfl fun i hi hstate => ?_
      rw [JobTable.deletejob_jobs hinv.distinct (hinv.positive _ hmem)] at hi hstate
      split at hi
      next => exact (hi rfl).elim
      next hne =>
        rw [if_neg hne] at hstate
        exact ⟨hi, hstate⟩

theorem init_filled (h : (shellMasking mask).init s) : Filled s := by
  obtain ⟨stale, -, htable, -⟩ := h
  intro i hi
  rw [htable] at hi
  exact (hi rfl).elim

theorem reachable_filled (h : (shellMasking mask).Reachable s) : Filled s :=
  ((shellMasking mask).reachable_invariant (fun _ hi => (⟨init_inv hi, init_filled hi⟩ : _ ∧ _))
    (fun _ _ _ hi hs => ⟨moves_inv hi.1 (step_moves hs), moves_filled hi.1 hi.2 (step_moves hs)⟩)
    h).2

theorem state_at_prompt (h : shell.Reachable s) (hp : s.AtPrompt) (hi : (s.table.jobs i).pid ≠ 0) :
    (s.table.jobs i).state = .bg ∨ (s.table.jobs i).state = .st := by
  have hpc : s.pc = .prompt := hp
  cases hstate : (s.table.jobs i).state with
  | undef =>
      obtain ⟨job, hadd⟩ := reachable_filled h i hi hstate
      rw [hpc] at hadd
      cases hadd
  | fg => exact ((reachable_inv h).not_foreground_at_prompt hp i ⟨hi, hstate⟩).elim
  | bg => exact Or.inl rfl
  | st => exact Or.inr rfl

/-! ## What keeps `quit` from leaving -/

/-- An entry without a pid that looks like a job to `jobsInBackgroundOrStopped`. -/
def Leftover (t : JobTable) (i : Slot) : Prop :=
  (t.jobs i).pid = 0 ∧ ((t.jobs i).state = .bg ∨ (t.jobs i).state = .st)

theorem jobsInBackgroundOrStopped_iff (h : shell.Reachable s) (hp : s.AtPrompt) :
    s.table.jobsInBackgroundOrStopped = 1 ↔
      (∃ i, (s.table.jobs i).pid ≠ 0) ∨ ∃ i, Leftover s.table i := by
  have hone : s.table.jobsInBackgroundOrStopped = 1 ↔
      ∃ i, (s.table.jobs i).state = .bg ∨ (s.table.jobs i).state = .st := by
    unfold JobTable.jobsInBackgroundOrStopped
    split
    next i hfirst =>
      have hstate := JobTable.firstJob_some hfirst
      exact iff_of_true rfl ⟨i, by simpa using hstate⟩
    next hnone =>
      refine iff_of_false (by decide) ?_
      rintro ⟨i, hi⟩
      have hfalse := JobTable.firstJob_none hnone i
      rcases hi with hi | hi <;> simp [hi] at hfalse
  rw [hone]
  constructor
  · rintro ⟨i, hi⟩
    by_cases hpid : (s.table.jobs i).pid = 0
    · exact Or.inr ⟨i, hpid, hi⟩
    · exact Or.inl ⟨i, hpid⟩
  · rintro (⟨i, hi⟩ | ⟨i, -, hi⟩)
    · exact ⟨i, state_at_prompt h hp hi⟩
    · exact ⟨i, hi⟩

theorem evalLine_quit (s : State) (args : List (List UInt8)) (bg : Bool) (cmdline : List UInt8)
    (unset : Int) :
    s.evalLine (ascii ['q', 'u', 'i', 't'] :: args) bg cmdline unset = .halted ↔
      s.table.jobsInBackgroundOrStopped ≠ 1 := by
  unfold State.evalLine
  dsimp only
  rw [if_pos rfl]
  split <;> simp_all

/-- In a run that reaps no child before it is listed, `quit` leaves exactly when no child is
left behind and no late write has left an entry behind. -/
theorem quit_halted_iff (h : shell.ReachableWhere ReapsListed s) (hp : s.AtPrompt)
    (args : List (List UInt8)) (bg : Bool) (cmdline : List UInt8) (unset : Int) :
    s.evalLine (ascii ['q', 'u', 'i', 't'] :: args) bg cmdline unset = .halted ↔
      (∀ p, ¬ Alive s p) ∧ ∀ i, ¬ Leftover s.table i := by
  have hlisted : (∃ i, (s.table.jobs i).pid ≠ 0) ↔ ∃ p, Alive s p := by
    have hmirror := reachable_mirror h (Or.inl hp)
    constructor
    · rintro ⟨i, hi⟩
      exact ⟨_, (hmirror _).mp ⟨i, rfl, hi⟩⟩
    · rintro ⟨p, halive⟩
      obtain ⟨i, hi, hp⟩ := (hmirror p).mpr halive
      exact ⟨i, hi ▸ hp⟩
  rw [evalLine_quit, ne_eq, jobsInBackgroundOrStopped_iff h.reachable hp, hlisted, not_or,
    not_exists, not_exists]

/-- A job is reaped before its state is stored, which nobody takes back. -/
theorem exitInAddjob_reachableWhere :
    shell.ReachableWhere ReapsListed (shell.after start exitInAddjob) :=
  ⟨start, exitInAddjob, start_init _, by decide +kernel, shell.run_eq_after (by decide +kernel)⟩

theorem exitInAddjob_quit :
    (shell.after start exitInAddjob).evalLine [ascii ['q', 'u', 'i', 't']] false [] 0 = .halted ↔
      (∀ p, ¬ Alive (shell.after start exitInAddjob) p) ∧
        ∀ i, ¬ Leftover (shell.after start exitInAddjob).table i :=
  quit_halted_iff exitInAddjob_reachableWhere (by unfold State.AtPrompt; decide +kernel) [] false
    [] 0

/-! ## `listjobs` -/

/-- The arguments of the first `printf`. -/
def jobNumbers (job : Job) : List UInt8 :=
  ascii ['['] ++ decimal job.jid ++ ascii "] (".toList ++ decimal job.pid ++ ascii ") ".toList

/-- The cases of the `switch`. -/
def stateWord (i : Slot) : JobState → List UInt8
  | .bg => ascii "Running ".toList
  | .fg => ascii "Foreground ".toList
  | .st => ascii "Stopped ".toList
  | .undef =>
      ascii "listjobs: Internal error: job[".toList ++ decimal i.val ++
        ascii "].state=".toList ++ decimal 0 ++ ascii [' ']

/-- The next statement of the loop. -/
inductive ListPc
  | check (i : Slot)
  | numbers (i : Slot)
  | word (i : Slot)
  | text (i : Slot)
  | done
  deriving DecidableEq

/-- `i++`, `i < MAXJOBS` -/
def ListPc.after (i : Slot) : ListPc :=
  if h : i.val + 1 < MAXJOBS then .check ⟨i.val + 1, h⟩ else .done

/-- The shell at the prompt, in the middle of `listjobs`. -/
structure ListState where
  current : State
  pc : ListPc
  out : List UInt8

def ListState.statement (l : ListState) : Option ListState :=
  match l.pc with
  | .check i =>
      some { l with pc := if (l.current.table.jobs i).pid ≠ 0 then .numbers i else .after i }
  | .numbers i =>
      some { l with pc := .word i, out := l.out ++ jobNumbers (l.current.table.jobs i) }
  | .word i =>
      some { l with pc := .text i, out := l.out ++ stateWord i (l.current.table.jobs i).state }
  | .text i =>
      some { l with pc := .after i, out := l.out ++ cstring (l.current.table.jobs i).cmdline }
  | .done => none

/-- What happens without the main thread. -/
def Event.Outside : Event → Prop
  | .sigchld | .wait _ | .sigret | .child _ _ => True
  | .line _ _ _ _ | .eof | .main | .fork _ | .kill _ => False

instance : DecidablePred Event.Outside
  | .sigchld | .wait _ | .sigret | .child _ _ => isTrue trivial
  | .line _ _ _ _ | .eof | .main | .fork _ | .kill _ => isFalse id

inductive ListEvent
  | statement
  | outside (e : Event)
  deriving DecidableEq

def ListState.step (l : ListState) : ListEvent → Option ListState
  | .statement => if l.current.inHandler = false then l.statement else none
  | .outside e =>
      if e.Outside then (shell.step l.current e).map fun s => { l with current := s } else none

theorem maxjobs_pos : 0 < MAXJOBS := by decide

/-- `jobs` from a state at the prompt. -/
def listjobs (s : State) : System ListState ListEvent where
  init l := l = ⟨s, .check ⟨0, maxjobs_pos⟩, []⟩
  step := ListState.step

/-! ## What the handler does meanwhile -/

/-- The handler has reaped the child. -/
def Reaped (s t : State) (pid : Int) : Prop := s.status pid ≠ .reaped ∧ t.status pid = .reaped

/-- What has become of the entries since `s`: they are as they were, or their job has been
stopped, or it has been reaped and they are cleared. -/
structure Since (s t : State) : Prop where
  status : ∀ p, s.status p = .reaped → t.status p = .reaped
  entry : ∀ i, t.table.jobs i = s.table.jobs i ∨ (s.table.jobs i).pid ≠ 0 ∧
    (t.table.jobs i = { s.table.jobs i with state := .st } ∨
      Reaped s t (s.table.jobs i).pid ∧ t.table.jobs i = clearjob (s.table.jobs i))

theorem Since.refl (s : State) : Since s s := ⟨fun _ h => h, fun _ => Or.inl rfl⟩

theorem Reaped.since (h : Reaped s t pid) (ht : Since t u) : Reaped s u pid :=
  ⟨h.1, ht.status pid h.2⟩

theorem Reaped.of_since (h : Reaped t u pid) (hs : Since s t) : Reaped s u pid :=
  ⟨fun hp => h.1 (hs.status pid hp), h.2⟩

theorem Since.pid_eq (h : Since s t) (hi : (t.table.jobs i).pid ≠ 0) :
    (t.table.jobs i).pid = (s.table.jobs i).pid := by
  rcases h.entry i with ht | ⟨-, ht | ⟨-, ht⟩⟩
  · rw [ht]
  · rw [ht]
  · rw [ht] at hi
    exact (hi rfl).elim

theorem Since.trans (hs : Since s t) (ht : Since t u) : Since s u where
  status p hp := ht.status p (hs.status p hp)
  entry i := by
    rcases hs.entry i with hi | ⟨hpid, hi | ⟨hgone, hi⟩⟩
    · have hu := ht.entry i
      rw [hi] at hu
      exact hu.imp id fun ⟨hpid, hu⟩ =>
        ⟨hpid, hu.imp id fun ⟨hgone, hu⟩ => ⟨hgone.of_since hs, hu⟩⟩
    · have hu := ht.entry i
      rw [hi] at hu
      refine Or.inr ⟨hpid, ?_⟩
      rcases hu with hu | ⟨-, hu | ⟨hgone, hu⟩⟩
      · exact Or.inl hu
      · exact Or.inl hu
      · exact Or.inr ⟨hgone.of_since hs, hu⟩
    · -- a cleared entry stays
      rcases ht.entry i with hu | ⟨hempty, -⟩
      · exact Or.inr ⟨hpid, Or.inr ⟨hgone.since ht, hu.trans hi⟩⟩
      · rw [hi] at hempty
        exact (hempty rfl).elim

/-- A step that leaves the table alone and reaps nobody. -/
theorem since_update {c : ChildStatus} (hold : s.status pid ≠ .reaped)
    (htable : s'.table = s.table) (hstatus : s'.status = Function.update s.status pid c) :
    Since s s' where
  status p hp := by
    have hne : p ≠ pid := fun heq => hold (heq ▸ hp)
    rw [hstatus, Function.update_of_ne hne, hp]
  entry i := Or.inl (by rw [htable])

theorem moves_since {e : Event} (hinv : Inv s) (he : e.Outside) (hm : Moves mask s e s') :
    Since s s' := by
  cases hm with
  | sigchld | sigret => exact ⟨fun _ h => h, fun _ => Or.inl rfl⟩
  | drop hin hmem hstatus => exact since_update (by simp [hstatus]) rfl rfl
  | child hmem happly => exact since_update (Change.apply_ne_reaped happly).1 rfl rfl
  | @stop pid k hin hmem hstatus hget =>
      have hk := JobTable.getjobpid_some hget
      refine ⟨fun p hp => ?_, fun i => ?_⟩
      · have hne : p ≠ pid := by
          rintro rfl
          simp [hstatus] at hp
        exact (Function.update_of_ne hne _ _).trans hp
      · change (s.table.setState k .st).jobs i = _ ∨ _
        rw [JobTable.setState, JobTable.modify_jobs]
        split
        next hik =>
          refine Or.inr ⟨?_, Or.inl rfl⟩
          rw [hik]
          omega
        next => exact Or.inl rfl
  | @reap pid hin hmem hstatus =>
      have hpos := hinv.positive pid hmem
      have hold : s.status pid ≠ .reaped := by rcases hstatus with hs | hs <;> simp [hs]
      refine ⟨fun p hp => ?_, fun i => ?_⟩
      · have hne : p ≠ pid := fun heq => hold (heq ▸ hp)
        exact (Function.update_of_ne hne _ _).trans hp
      · have hjobs := JobTable.deletejob_jobs hinv.distinct hpos i
        by_cases hi : (s.table.jobs i).pid = pid
        · rw [if_pos hi] at hjobs
          refine Or.inr ⟨by omega, Or.inr ⟨⟨hi ▸ hold, ?_⟩, hjobs⟩⟩
          rw [hi]
          exact Function.update_self _ _ _
        · rw [if_neg hi] at hjobs
          exact Or.inl hjobs
  | line | eof | main | forkFail | fork | kill => exact he.elim

/-! ## What is printed -/

/-- The first part of a line. -/
def NumbersOf (s t : State) (i : Slot) (part : List UInt8) : Prop :=
  part = jobNumbers (s.table.jobs i) ∨
    Reaped s t (s.table.jobs i).pid ∧ part = jobNumbers (clearjob (s.table.jobs i))

/-- The second part. -/
def WordOf (s t : State) (i : Slot) (part : List UInt8) : Prop :=
  (s.table.jobs i).state = .bg ∧ part = stateWord i .bg ∨
    Reaped s t (s.table.jobs i).pid ∧ part = stateWord i .undef ∨
    ((t.table.jobs i).state = .st ∨ Reaped s t (s.table.jobs i).pid) ∧ part = stateWord i .st

/-- The last part. -/
def TextOf (s t : State) (i : Slot) (part : List UInt8) : Prop :=
  part = cstring (s.table.jobs i).cmdline ∨ Reaped s t (s.table.jobs i).pid ∧ part = []

/-- The line for a slot: nothing for an empty one, and for a job its numbers, its state and
its command line. Where the handler has reaped the job, there may be no line, or the parts
from some place on are those of a cleared entry. -/
def LineOf (s t : State) (i : Slot) (line : List UInt8) : Prop :=
  (s.table.jobs i).pid = 0 ∧ line = [] ∨
    (s.table.jobs i).pid ≠ 0 ∧
      (Reaped s t (s.table.jobs i).pid ∧ line = [] ∨
        ∃ numbers word text, NumbersOf s t i numbers ∧ WordOf s t i word ∧ TextOf s t i text ∧
          line = numbers ++ word ++ text)

section Parts

variable {part : List UInt8}

theorem NumbersOf.since (h : NumbersOf s t i part) (ht : Since t u) : NumbersOf s u i part :=
  h.imp id fun ⟨hreaped, heq⟩ => ⟨hreaped.since ht, heq⟩

theorem TextOf.since (h : TextOf s t i part) (ht : Since t u) : TextOf s u i part :=
  h.imp id fun ⟨hreaped, heq⟩ => ⟨hreaped.since ht, heq⟩

theorem WordOf.since (h : WordOf s t i part) (hs : Since s t) (ht : Since t u) :
    WordOf s u i part := by
  refine h.imp id (Or.imp (fun ⟨hreaped, heq⟩ => ⟨hreaped.since ht, heq⟩) ?_)
  rintro ⟨hstopped | hreaped, heq⟩
  · refine ⟨?_, heq⟩
    rcases ht.entry i with hu | ⟨hpid, hu | ⟨hgone, -⟩⟩
    · exact Or.inl (hu ▸ hstopped)
    · exact Or.inl (by rw [hu])
    · rw [hs.pid_eq hpid] at hgone
      exact Or.inr (hgone.of_since hs)
  · exact ⟨Or.inr (hreaped.since ht), heq⟩

theorem LineOf.since (h : LineOf s t i part) (hs : Since s t) (ht : Since t u) :
    LineOf s u i part := by
  refine h.imp id fun ⟨hpid, h⟩ => ⟨hpid, h.imp (fun ⟨hreaped, heq⟩ => ⟨hreaped.since ht, heq⟩) ?_⟩
  rintro ⟨numbers, word, text, hnumbers, hword, htext, heq⟩
  exact ⟨numbers, word, text, hnumbers.since ht, hword.since hs ht, htext.since ht, heq⟩

/-! ### What a statement prints -/

theorem Since.empty (h : Since s t) (hi : (t.table.jobs i).pid = 0) : LineOf s t i [] := by
  rcases h.entry i with ht | ⟨hpid, ht | ⟨hgone, -⟩⟩
  · exact Or.inl ⟨ht ▸ hi, rfl⟩
  · rw [ht] at hi
    exact (hpid hi).elim
  · exact Or.inr ⟨hpid, Or.inl ⟨hgone, rfl⟩⟩

theorem Since.numbers (h : Since s t) : NumbersOf s t i (jobNumbers (t.table.jobs i)) := by
  rcases h.entry i with ht | ⟨-, ht | ⟨hgone, ht⟩⟩
  · exact Or.inl (by rw [ht])
  · exact Or.inl (by rw [ht]; rfl)
  · exact Or.inr ⟨hgone, by rw [ht]⟩

theorem Since.word (h : Since s t)
    (hstate : (s.table.jobs i).state = .bg ∨ (s.table.jobs i).state = .st) :
    WordOf s t i (stateWord i (t.table.jobs i).state) := by
  rcases h.entry i with ht | ⟨-, ht | ⟨hgone, ht⟩⟩
  · rcases hstate with hstate | hstate
    · exact Or.inl ⟨hstate, by rw [ht, hstate]⟩
    · exact Or.inr (Or.inr ⟨Or.inl (by rw [ht, hstate]), by rw [ht, hstate]⟩)
  · exact Or.inr (Or.inr ⟨Or.inl (by rw [ht]), by rw [ht]⟩)
  · exact Or.inr (Or.inl ⟨hgone, by rw [ht]; rfl⟩)

theorem Since.text (h : Since s t) : TextOf s t i (cstring (t.table.jobs i).cmdline) := by
  rcases h.entry i with ht | ⟨-, ht | ⟨hgone, ht⟩⟩
  · exact Or.inl (by rw [ht])
  · exact Or.inl (by rw [ht])
  · refine Or.inr ⟨hgone, ?_⟩
    rw [ht, clearjob]
    cases (s.table.jobs i).cmdline <;> simp [cstring]

end Parts

/-! ## The loop -/

/-- The slots that are through. -/
def ListPc.index : ListPc → Nat
  | .check i | .numbers i | .word i | .text i => i.val
  | .done => MAXJOBS

/-- What is printed of the line of the slot in work. -/
def ListPc.Begun (s t : State) : ListPc → List UInt8 → Prop
  | .check _, begun | .done, begun => begun = []
  | .numbers i, begun => (s.table.jobs i).pid ≠ 0 ∧ begun = []
  | .word i, begun => (s.table.jobs i).pid ≠ 0 ∧ NumbersOf s t i begun
  | .text i, begun => (s.table.jobs i).pid ≠ 0 ∧ ∃ numbers word,
      NumbersOf s t i numbers ∧ WordOf s t i word ∧ begun = numbers ++ word

structure Lines (s : State) (l : ListState) : Prop where
  inv : Inv l.current
  since : Since s l.current
  out : ∃ (line : Slot → List UInt8) (begun : List UInt8),
    l.out = ((List.finRange MAXJOBS).take l.pc.index).flatMap line ++ begun ∧
    (∀ i, i.val < l.pc.index → LineOf s l.current i (line i)) ∧ l.pc.Begun s l.current begun

variable {l m : ListState}

theorem ListPc.Begun.since {pc : ListPc} {begun : List UInt8} (h : pc.Begun s t begun)
    (hs : Since s t) (ht : Since t u) : pc.Begun s u begun := by
  cases pc with
  | check i | done | numbers i => exact h
  | word i => exact ⟨h.1, h.2.since ht⟩
  | text i =>
      obtain ⟨hpid, numbers, word, hnumbers, hword, heq⟩ := h
      exact ⟨hpid, numbers, word, hnumbers.since ht, hword.since hs ht, heq⟩

theorem ListPc.index_after (i : Slot) : (ListPc.after i).index = i.val + 1 := by
  unfold ListPc.after
  split
  next => rfl
  next hlast => exact Nat.le_antisymm (Nat.le_of_not_lt hlast) i.isLt

theorem ListPc.begun_after (s t : State) (i : Slot) : (ListPc.after i).Begun s t [] := by
  unfold ListPc.after
  split <;> rfl

theorem take_finRange (i : Slot) :
    (List.finRange MAXJOBS).take (i.val + 1) = (List.finRange MAXJOBS).take i.val ++ [i] := by
  rw [List.take_succ_eq_append_getElem (by simp), List.getElem_finRange]
  rfl

theorem lt_of_mem_take {j : Slot} {k : Nat} (h : j ∈ (List.finRange MAXJOBS).take k) :
    j.val < k := by
  obtain ⟨n, hn, rfl⟩ := List.mem_take_iff_getElem.mp h
  rw [List.getElem_finRange]
  exact lt_of_lt_of_le hn (min_le_left k _)

theorem Lines.close {line : Slot → List UInt8} {begun : List UInt8} (h : Lines s l)
    (hlines : ∀ j, j.val < i.val → LineOf s l.current j (line j))
    (hline : LineOf s l.current i begun) (hpc : m.pc = .after i)
    (hcurrent : m.current = l.current)
    (hm : m.out = ((List.finRange MAXJOBS).take i.val).flatMap line ++ begun) : Lines s m := by
  have hbefore : ((List.finRange MAXJOBS).take i.val).flatMap line =
      ((List.finRange MAXJOBS).take i.val).flatMap (Function.update line i begun) :=
    List.flatMap_congr fun j hj =>
      (Function.update_of_ne (fun heq => (heq ▸ lt_of_mem_take hj).ne rfl) _ _).symm
  refine ⟨hcurrent ▸ h.inv, hcurrent ▸ h.since, Function.update line i begun, [], ?_, ?_, ?_⟩
  · rw [hpc, ListPc.index_after, take_finRange, List.flatMap_append, List.flatMap_singleton,
      Function.update_self, ← hbefore, List.append_nil, hm]
  · intro j hj
    rw [hpc, ListPc.index_after] at hj
    rw [hcurrent, Function.update_apply]
    split
    next heq => exact heq ▸ hline
    next hne =>
      exact hlines j (lt_of_le_of_ne (Nat.lt_succ_iff.mp hj) fun heq => hne (Fin.ext heq))
  · rw [hpc, hcurrent]
    exact ListPc.begun_after s l.current i

theorem statement_lines (hstate : ∀ i, (s.table.jobs i).pid ≠ 0 →
      (s.table.jobs i).state = .bg ∨ (s.table.jobs i).state = .st)
    (h : Lines s l) (hl : l.statement = some m) : Lines s m := by
  obtain ⟨line, begun, hout, hlines, hbegun⟩ := h.out
  unfold ListState.statement at hl
  cases hpc : l.pc with
  | check i =>
      rw [hpc] at hl hout hlines hbegun
      obtain rfl : begun = [] := hbegun
      cases hl
      by_cases hpid : (l.current.table.jobs i).pid = 0
      · exact h.close hlines (h.since.empty hpid) (if_neg (not_not.mpr hpid)) rfl hout
      · refine ⟨h.inv, h.since, line, [], ?_⟩
        dsimp only
        rw [if_pos hpid]
        exact ⟨hout, hlines, h.since.pid_eq hpid ▸ hpid, rfl⟩
  | numbers i =>
      rw [hpc] at hl hout hlines hbegun
      obtain ⟨hpid, rfl⟩ := hbegun
      cases hl
      refine ⟨h.inv, h.since, line, jobNumbers (l.current.table.jobs i), ?_, hlines, hpid,
        h.since.numbers⟩
      rw [List.append_nil] at hout
      rw [hout]
      rfl
  | word i =>
      rw [hpc] at hl hout hlines hbegun
      obtain ⟨hpid, hnumbers⟩ := hbegun
      cases hl
      refine ⟨h.inv, h.since, line, begun ++ stateWord i (l.current.table.jobs i).state, ?_, hlines,
        hpid, begun, _, hnumbers, h.since.word (hstate i hpid), rfl⟩
      rw [← List.append_assoc, hout]
      rfl
  | text i =>
      rw [hpc] at hl hout hlines hbegun
      obtain ⟨hpid, numbers, word, hnumbers, hword, rfl⟩ := hbegun
      cases hl
      have hline : LineOf s l.current i
          (numbers ++ word ++ cstring (l.current.table.jobs i).cmdline) :=
        Or.inr ⟨hpid, Or.inr ⟨numbers, word, _, hnumbers, hword, h.since.text, rfl⟩⟩
      refine h.close hlines hline rfl rfl ?_
      rw [← List.append_assoc]
      exact congrArg (· ++ _) hout
  | done =>
      rw [hpc] at hl
      cases hl

theorem step_lines {e : ListEvent} (hstate : ∀ i, (s.table.jobs i).pid ≠ 0 →
      (s.table.jobs i).state = .bg ∨ (s.table.jobs i).state = .st)
    (h : Lines s l) (hl : (listjobs s).step l e = some m) : Lines s m := by
  cases e with
  | statement =>
      obtain ⟨-, hl⟩ := Option.ite_none_right_eq_some.mp hl
      exact statement_lines hstate h hl
  | outside e =>
      obtain ⟨he, hl⟩ := Option.ite_none_right_eq_some.mp hl
      obtain ⟨t, ht, rfl⟩ := Option.map_eq_some_iff.mp hl
      have hmoves := step_moves ht
      have hsince := moves_since h.inv he hmoves
      obtain ⟨line, begun, hout, hlines, hbegun⟩ := h.out
      exact ⟨moves_inv h.inv hmoves, h.since.trans hsince, line, begun, hout,
        fun i hi => (hlines i hi).since h.since hsince, hbegun.since h.since hsince⟩

/-- A job in the background. -/
def oneListed : State :=
  shell.after start ([.line [ascii ['l', 's']] true (ascii ['l', 's', ' ', '&']) 0, .main,
    .fork (some 100)] ++ List.replicate 9 .main)

/-- It exits after its numbers have been printed. -/
def exitInListjobs : List ListEvent :=
  [.statement, .statement, .outside (.child 100 .exit), .outside .sigchld, .outside (.wait 100),
    .outside .sigret] ++ List.replicate 17 .statement

theorem oneListed_reachable : shell.Reachable oneListed :=
  ⟨start, _, start_init _, shell.run_eq_after (by decide +kernel)⟩

example : ((listjobs oneListed).after ⟨oneListed, .check 0, []⟩ exitInListjobs).out =
    ascii "[1] (100) listjobs: Internal error: job[0].state=0 ".toList := by
  decide +kernel

end CompOrg.Shell
