import CompOrg.Shell.Foreground

/-! # Blank slots

A slot without a pid is blank in every state of a run in which the handler never
clears the slot that the main thread holds: the one that `addjob` is filling, up to
its job id, or the one that `do_bgfg` has looked up, up to its state. Where it does
clear that slot, the late write stays behind in an entry without a pid.
-/

namespace CompOrg.Shell

/-- Slots in use aside, every entry is as `clearjob` leaves it. -/
def BlankSlots (t : JobTable) : Prop :=
  ∀ i, (t.jobs i).pid = 0 → ((t.jobs i).jid = 0 ∧ (t.jobs i).state = .undef)

/-- The slot that the main thread is going to write a state or a job id to. -/
def Pc.held : Pc → Option Slot
  | .addState _ i | .addJid _ i | .bgfgKill _ i | .bgfgSet _ i => some i
  | _ => none

/-- The handler does not reap the child whose slot the main thread holds. -/
def KeepsHeld (s : State) : Event → Prop
  | .wait pid => s.status pid = .stopped ∨ ∀ k, s.pc.held = some k → (s.table.jobs k).pid ≠ pid
  | _ => True

instance (s : State) : ∀ e, Decidable (KeepsHeld s e)
  | .wait pid => inferInstanceAs (Decidable
      (s.status pid = .stopped ∨ ∀ k, s.pc.held = some k → (s.table.jobs k).pid ≠ pid))
  | .line _ _ _ _ | .eof | .main | .fork _ | .kill _ | .sigchld | .sigret | .child _ _ =>
      isTrue trivial

/-- Empty slots are blank and the held slot is not empty. -/
structure Blank (s : State) : Prop where
  blank : BlankSlots s.table
  held : ∀ k, s.pc.held = some k → (s.table.jobs k).pid ≠ 0

variable {s s' : State} {t : JobTable} {pid : Int} {mask : List Signal}

/-- A step that writes nothing to the table, and holds what was held or nothing. -/
theorem Blank.goto (h : Blank s) (htable : s'.table = s.table)
    (hheld : s'.pc.held = s.pc.held ∨ s'.pc.held = none) : Blank s' where
  blank := htable ▸ h.blank
  held k hk := by
    rw [htable]
    rcases hheld with hsame | hnone
    · exact h.held k (hsame ▸ hk)
    · simp [hnone] at hk

/-! ## The main thread -/

theorem blankSlots_setState (h : BlankSlots t) {k : Slot} (hk : (t.jobs k).pid ≠ 0)
    (state : JobState) : BlankSlots (t.setState k state) := by
  intro i hi
  rw [t.setState_pid] at hi
  have hik : i ≠ k := fun hik => hk (hik ▸ hi)
  rw [t.setState_jid, t.setState_state, if_neg hik]
  exact h i hi

theorem blankSlots_takeJid (h : BlankSlots t) {k : Slot} (hk : (t.jobs k).pid ≠ 0) :
    BlankSlots (t.takeJid k) := by
  intro i hi
  rw [t.takeJid_pid] at hi
  have hik : i ≠ k := fun hik => hk (hik ▸ hi)
  rw [t.takeJid_jid, t.takeJid_state, if_neg hik]
  exact h i hi

theorem blankSlots_setPid (h : BlankSlots t) (k : Slot) (hpid : pid ≠ 0) :
    BlankSlots (t.setPid k pid) := by
  intro i hi
  rw [t.setPid_pid] at hi
  split at hi
  next => exact (hpid hi).elim
  next =>
    rw [t.setPid_jid, t.setPid_state]
    exact h i hi

theorem mainStep_blank (hinv : Inv s) (h : Blank s) (hs : s.mainStep mask = some s') :
    Blank s' := by
  unfold State.mainStep at hs
  have hsound := hinv.sound
  have hheld := h.held
  cases hpc : s.pc with
  | addScan job i =>
      rw [hpc] at hs
      cases hs
      refine h.goto rfl (Or.inr ?_)
      dsimp only
      split
      · rfl
      · split <;> rfl
  | addPid job k =>
      rw [hpc] at hs hsound
      cases hs
      have hpos := hinv.positive _ hsound.1
      refine ⟨blankSlots_setPid h.blank k (by omega), ?_⟩
      rintro i ⟨⟩
      rw [s.table.setPid_pid, if_pos rfl]
      omega
  | addState job k =>
      rw [hpc] at hs hheld
      cases hs
      have hk := hheld k rfl
      refine ⟨blankSlots_setState h.blank hk job.state, ?_⟩
      rintro i ⟨⟩
      rwa [s.table.setState_pid]
  | addJid job k =>
      rw [hpc] at hs hheld
      cases hs
      refine ⟨blankSlots_takeJid h.blank (hheld k rfl), ?_⟩
      rintro i ⟨⟩
  | addWrap job i =>
      rw [hpc] at hs
      cases hs
      refine ⟨fun i => ?_, ?_⟩
      · rw [s.table.wrapJid_jobs]
        exact h.blank i
      · rintro i ⟨⟩
  | addCopy job k =>
      rw [hpc] at hs
      cases hs
      refine ⟨fun i => ?_, ?_⟩
      · rw [s.table.copyCmdline_pid, s.table.copyCmdline_jid, s.table.copyCmdline_state]
        exact h.blank i
      · rintro i ⟨⟩
  | bgfgSet fg k =>
      rw [hpc] at hs hheld
      cases hs
      refine ⟨blankSlots_setState h.blank (hheld k rfl) _, ?_⟩
      cases fg <;> rintro i ⟨⟩
  | addCheck job | evalWait job | waitLookup pid | waitState i pid | waitPid i pid =>
      rw [hpc] at hs
      cases hs
      refine h.goto rfl (Or.inr ?_)
      dsimp only
      split <;> rfl
  | evalBlock bg cmdline | evalUnblock job | bgfgWait i | bgfgPrint i =>
      rw [hpc] at hs
      cases hs
      exact h.goto rfl (Or.inr rfl)
  | prompt | evalFork bg cmdline | bgfgKill fg i | halted =>
      rw [hpc] at hs
      cases hs

theorem bgfgTarget_ne_zero (h : BlankSlots t) {arg : List UInt8} {unset : Int} {k : Slot}
    (hk : bgfgTarget t arg unset = .job k) : (t.jobs k).pid ≠ 0 := by
  have hpid : ∀ p, Target.ofSlot (t.getjobpid p) = .job k → (t.jobs k).pid ≠ 0 := by
    intro p hp
    cases hget : t.getjobpid p with
    | none => simp [hget, Target.ofSlot] at hp
    | some i =>
        obtain rfl : i = k := by simpa [hget, Target.ofSlot] using hp
        have := JobTable.getjobpid_some hget
        omega
  have hjid : ∀ j, Target.ofSlot (t.getjobjid j) = .job k → (t.jobs k).pid ≠ 0 := by
    intro j hj hempty
    cases hget : t.getjobjid j with
    | none => simp [hget, Target.ofSlot] at hj
    | some i =>
        obtain rfl : i = k := by simpa [hget, Target.ofSlot] using hj
        have := JobTable.getjobjid_some hget
        have := (h i hempty).1
        omega
  unfold bgfgTarget at hk
  split at hk
  next => exact hpid _ hk
  next => simp at hk
  next =>
    split at hk
    next => simp at hk
    next => exact hjid _ hk
    next => exact hjid _ hk

theorem evalLine_blank (h : BlankSlots s.table) (argv : List (List UInt8)) (bg : Bool)
    (cmdline : List UInt8) (unset : Int) (k : Slot)
    (hk : (s.evalLine argv bg cmdline unset).held = some k) : (s.table.jobs k).pid ≠ 0 := by
  rcases evalLine_cases s argv bg cmdline unset with hl | hl | hl | ⟨arg, fg, i, htarget, hl⟩ <;>
    rw [hl] at hk
  · simp [Pc.held] at hk
  · simp [Pc.held] at hk
  · simp [Pc.held] at hk
  · obtain rfl : i = k := by simpa [Pc.held] using hk
    exact bgfgTarget_ne_zero h htarget

/-! ## The handler -/

theorem reap_blank (hinv : Inv s) (h : Blank s) (hmem : pid ∈ s.forked)
    (hheld : ∀ k, s.pc.held = some k → (s.table.jobs k).pid ≠ pid) :
    Blank { s with
      status := Function.update s.status pid .reaped
      table := (s.table.deletejob pid).1 } := by
  have hjobs := JobTable.deletejob_jobs hinv.distinct (hinv.positive pid hmem)
  refine ⟨fun i => ?_, fun k hk => ?_⟩
  · rw [hjobs i]
    split
    · exact fun _ => ⟨rfl, rfl⟩
    · exact h.blank i
  · rw [hjobs k, if_neg (hheld k hk)]
    exact h.held k hk

/-! ## Steps and runs -/

theorem moves_blank {e : Event} (hinv : Inv s) (h : Blank s) (hok : KeepsHeld s e)
    (hm : Moves mask s e s') : Blank s' := by
  cases hm with
  | line hpc => exact ⟨h.blank, evalLine_blank h.blank _ _ _ _⟩
  | main hin hs => exact mainStep_blank hinv h hs
  | eof | forkFail | fork => exact h.goto rfl (Or.inr rfl)
  | @kill fg i ok hpc =>
      cases ok with
      | true => exact h.goto rfl (Or.inl (by rw [hpc]; rfl))
      | false => exact h.goto rfl (Or.inr rfl)
  | sigchld | sigret | drop | child => exact h.goto rfl (Or.inl rfl)
  | @stop pid i hin hmem hstatus hget =>
      have hi := JobTable.getjobpid_some hget
      refine ⟨blankSlots_setState h.blank (by omega) .st, fun k hk => ?_⟩
      rw [s.table.setState_pid]
      exact h.held k hk
  | @reap pid hin hmem hstatus =>
      have hstopped : s.status pid ≠ .stopped := by rcases hstatus with hs | hs <;> simp [hs]
      exact reap_blank hinv h hmem (hok.resolve_left hstopped)

theorem init_blank (h : (shellMasking mask).init s) : Blank s := by
  obtain ⟨stale, -, htable, hpc, -⟩ := h
  refine ⟨fun i _ => ?_, fun k hk => ?_⟩
  · rw [htable]
    exact ⟨rfl, rfl⟩
  · simp [hpc, Pc.held] at hk

theorem reachable_blank (h : (shellMasking mask).ReachableWhere KeepsHeld s) : Blank s :=
  ((shellMasking mask).reachableWhere_invariant (fun _ hi => (⟨init_inv hi, init_blank hi⟩ : _ ∧ _))
    (fun _ _ _ hi hok hs =>
      ⟨moves_inv hi.1 (step_moves hs), moves_blank hi.1 hi.2 hok (step_moves hs)⟩) h).2

/-! ## What the other routines see -/

/-- `fgpid` finds the foreground job, not a leftover. -/
theorem fgpid_eq (hinv : Inv s) (h : BlankSlots s.table) {i : Slot} (hi : Foreground s.table i) :
    s.table.fgpid = (s.table.jobs i).pid := by
  have hfirst : s.table.firstJob (fun job => job.state == .fg) = some i := by
    refine JobTable.firstJob_of_unique (by simp [hi.2]) fun j hj => ?_
    have hj : (s.table.jobs j).state = .fg := by simpa using hj
    refine hinv.foreground_unique ⟨fun hempty => ?_, hj⟩ hi
    simp [(h j hempty).2] at hj
  rw [JobTable.fgpid, hfirst]

theorem jobsInBackgroundOrStopped_live (h : BlankSlots t)
    (hone : t.jobsInBackgroundOrStopped = 1) :
    ∃ i, (t.jobs i).pid ≠ 0 ∧ ((t.jobs i).state = .bg ∨ (t.jobs i).state = .st) := by
  unfold JobTable.jobsInBackgroundOrStopped at hone
  split at hone
  next i hfirst =>
    have hstate : (t.jobs i).state = .bg ∨ (t.jobs i).state = .st := by
      simpa using JobTable.firstJob_some hfirst
    refine ⟨i, fun hempty => ?_, hstate⟩
    rw [(h i hempty).2] at hstate
    simp at hstate
  next => simp at hone

/-- In every state of a run in which no held slot is cleared, empty slots are blank,
`fgpid` returns the foreground job, and `quit` refuses only for a live job. -/
theorem reachable_blankSlots (h : shell.ReachableWhere KeepsHeld s) :
    BlankSlots s.table ∧
      (∀ i, Foreground s.table i → s.table.fgpid = (s.table.jobs i).pid) ∧
      (s.table.jobsInBackgroundOrStopped = 1 →
        ∃ i, (s.table.jobs i).pid ≠ 0 ∧
          ((s.table.jobs i).state = .bg ∨ (s.table.jobs i).state = .st)) := by
  have hblank := (reachable_blank h).blank
  have hinv := reachable_inv h.reachable
  exact ⟨hblank, fun _ => fgpid_eq hinv hblank, jobsInBackgroundOrStopped_live hblank⟩

/-- A background job exits while the shell reads the next line. -/
def exitAtPrompt : List Event :=
  [.line [ascii ['l', 's']] true (ascii ['l', 's', ' ', '&']) 0, .main, .fork (some 100)] ++
    List.replicate 9 .main ++ [.child 100 .exit, .sigchld, .wait 100, .sigret]

theorem exitAtPrompt_reachableWhere :
    shell.ReachableWhere KeepsHeld (shell.after start exitAtPrompt) :=
  ⟨start, exitAtPrompt, start_init _, by decide +kernel, shell.run_eq_after (by decide +kernel)⟩

theorem exitAtPrompt_blankSlots :
    BlankSlots (shell.after start exitAtPrompt).table ∧
      (∀ i, Foreground (shell.after start exitAtPrompt).table i →
        (shell.after start exitAtPrompt).table.fgpid =
          ((shell.after start exitAtPrompt).table.jobs i).pid) ∧
      ((shell.after start exitAtPrompt).table.jobsInBackgroundOrStopped = 1 →
        ∃ i, ((shell.after start exitAtPrompt).table.jobs i).pid ≠ 0 ∧
          (((shell.after start exitAtPrompt).table.jobs i).state = .bg ∨
            ((shell.after start exitAtPrompt).table.jobs i).state = .st)) :=
  reachable_blankSlots exitAtPrompt_reachableWhere

/-- The same job exits between the first two assignments of `addjob`. -/
def exitInAddjob : List Event :=
  [.line [ascii ['l', 's']] true (ascii ['l', 's', ' ', '&']) 0, .main, .fork (some 100)] ++
    List.replicate 3 .main ++ [.child 100 .exit, .sigchld, .wait 100, .sigret] ++
    List.replicate 6 .main

/-- Back at the prompt, a slot without a pid is in state `BG`. -/
theorem exists_reachable_not_blank :
    ¬ ∀ s, shell.Reachable s → s.AtPrompt ∨ s.InWaitfg → BlankSlots s.table := by
  intro h
  have hreach : shell.Reachable (shell.after start exitInAddjob) :=
    ⟨start, exitInAddjob, start_init _, shell.run_eq_after (by decide +kernel)⟩
  have hprompt : (shell.after start exitInAddjob).pc = .prompt := by decide +kernel
  have hempty : ((shell.after start exitInAddjob).table.jobs 0).pid = 0 := by decide +kernel
  have hstate : ((shell.after start exitInAddjob).table.jobs 0).state = .bg := by decide +kernel
  have hblank := (h _ hreach (Or.inl hprompt) 0 hempty).2
  simp [hstate] at hblank

end CompOrg.Shell
