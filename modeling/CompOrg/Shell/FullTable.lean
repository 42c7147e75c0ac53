import CompOrg.Shell.Foreground

/-! # A command line while the job table is full

`eval` forks before `addjob` looks for an empty slot. Where there is none the shell
leaves through `unix_error`, and the child goes on outside the table. Until then only
`sigchld_handler` writes into the table; while it deletes no entry, each statement of
the main thread brings the exit nearer.
-/

namespace CompOrg.Shell

/-- The line is neither blank nor a built-in command. -/
def External : List (List UInt8) → Prop
  | [] => False
  | name :: _ =>
      name ≠ ascii ['q', 'u', 'i', 't'] ∧ name ≠ ascii ['j', 'o', 'b', 's'] ∧
        name ≠ ascii ['f', 'g'] ∧ name ≠ ascii ['b', 'g']

def JobTable.Full (t : JobTable) : Prop := ∀ i, (t.jobs i).pid ≠ 0

/-- The entries are the same, but for jobs that were stopped meanwhile. -/
structure SameEntries (t t' : JobTable) : Prop where
  nextjid : t'.nextjid = t.nextjid
  entry : ∀ i, t'.jobs i = t.jobs i ∨ t'.jobs i = { t.jobs i with state := .st }

/-- An iteration of the handler does not delete an entry. -/
def KeepsEntries (s : State) : Event → Prop
  | .wait pid => s.status pid = .stopped ∨ ∀ i, (s.table.jobs i).pid ≠ pid
  | _ => True

instance (s : State) : DecidablePred (KeepsEntries s) := fun e =>
  match e with
  | .wait pid =>
      inferInstanceAs (Decidable (s.status pid = .stopped ∨ ∀ i, (s.table.jobs i).pid ≠ pid))
  | .line .. | .eof | .main | .fork _ | .kill _ | .sigchld | .sigret | .child .. =>
      inferInstanceAs (Decidable True)

def Event.ofMain : Event → Nat
  | .main | .fork _ => 1
  | _ => 0

/-- How many of them are left before the shell exits. -/
def Pc.remaining : Pc → Option Nat
  | .evalBlock _ _ => some 19
  | .evalFork _ _ => some 18
  | .addCheck _ => some 17
  | .addScan _ i => some (MAXJOBS - i)
  | .halted => some 0
  | _ => none

/-- The shell is on its way out, with the entries of `t` in the table. -/
structure Refusing (t : JobTable) (s : State) (k : Nat) : Prop where
  inv : Inv s
  entries : SameEntries t s.table
  remaining : s.pc.remaining = some k

variable {s s' : State} {t t' : JobTable} {mask : List Signal} {k : Nat}

theorem SameEntries.refl (t : JobTable) : SameEntries t t := ⟨rfl, fun _ => Or.inl rfl⟩

theorem SameEntries.pid (h : SameEntries t t') (i : Slot) : (t'.jobs i).pid = (t.jobs i).pid := by
  rcases h.entry i with heq | heq <;> rw [heq]

theorem SameEntries.stop (h : SameEntries t t') (i : Slot) : SameEntries t (t'.setState i .st) where
  nextjid := h.nextjid
  entry j := by
    rw [JobTable.setState, JobTable.modify_jobs]
    split
    · rcases h.entry j with heq | heq
      · exact Or.inr (by rw [heq])
      · exact Or.inr (by rw [heq])
    · exact h.entry j

theorem deletejob_of_unlisted {pid : Int} (h : ∀ i, (t.jobs i).pid ≠ pid) :
    (t.deletejob pid).1 = t := by
  have hnone : t.firstJob (fun job => job.pid == pid) = none :=
    JobTable.firstJob_of_none fun i => by simpa using h i
  rw [JobTable.deletejob, hnone]
  split <;> rfl

theorem External.evalLine {argv : List (List UInt8)} (h : External argv) (s : State) (bg : Bool)
    (cmdline : List UInt8) (unset : Int) :
    s.evalLine argv bg cmdline unset = .evalBlock bg cmdline := by
  cases argv with
  | nil => exact h.elim
  | cons name args =>
      obtain ⟨hquit, hjobs, hfg, hbg⟩ := h
      simp [State.evalLine, hquit, hjobs, hfg, hbg]

/-! ## The statements up to the exit -/

theorem Pc.remaining_eq_zero {pc : Pc} (h : pc.remaining = some 0) : pc = .halted := by
  cases pc with
  | halted => rfl
  | addScan job i =>
      simp only [Pc.remaining, Option.some.injEq] at h
      omega
  | _ => simp [Pc.remaining] at h

/-- `addjob` finds no empty slot, so its loop goes on to the end. -/
theorem mainStep_remaining (hfull : s.table.Full) (hk : s.pc.remaining = some k)
    (hs : s.mainStep mask = some s') :
    s'.table = s.table ∧ ∃ j, s'.pc.remaining = some j ∧ j + 1 ≤ k := by
  cases hpc : s.pc with
  | evalBlock bg cmdline =>
      simp only [State.mainStep, hpc, Pc.remaining, Option.some.injEq] at hs hk
      subst hs
      exact ⟨rfl, 18, rfl, by omega⟩
  | addCheck job =>
      simp only [State.mainStep, hpc, Pc.remaining, Option.some.injEq] at hs hk
      subst hs
      refine ⟨rfl, ?_⟩
      dsimp only
      split
      · exact ⟨0, rfl, by omega⟩
      · exact ⟨16, rfl, by omega⟩
  | addScan job i =>
      simp only [State.mainStep, hpc, Pc.remaining, Option.some.injEq, if_neg (hfull i)] at hs hk
      subst hs
      refine ⟨rfl, ?_⟩
      dsimp only
      split
      · exact ⟨MAXJOBS - (i + 1), rfl, by omega⟩
      · exact ⟨0, rfl, by omega⟩
  | evalFork | halted => simp [State.mainStep, hpc] at hs
  | _ => simp [hpc, Pc.remaining] at hk

/-- Every step keeps the entries, and those of the main thread bring the exit nearer. -/
theorem moves_refusing {e : Event} (hfull : t.Full) (h : Refusing t s k) (hok : KeepsEntries s e)
    (hs : Moves mask s e s') : ∃ j, Refusing t s' j ∧ j + e.ofMain ≤ k := by
  have hinv := moves_inv h.inv hs
  have hk := h.remaining
  have hsfull : s.table.Full := fun i hi => hfull i ((h.entries.pid i).symm.trans hi)
  cases hs with
  | main hin hmain =>
      obtain ⟨htable, j, hj, hle⟩ := mainStep_remaining hsfull hk hmain
      exact ⟨j, ⟨hinv, htable ▸ h.entries, hj⟩, hle⟩
  | forkFail hpc =>
      simp only [hpc, Pc.remaining, Option.some.injEq] at hk
      exact ⟨0, ⟨hinv, h.entries, rfl⟩, by simp only [Event.ofMain]; omega⟩
  | fork hin hpc hpid hnew =>
      simp only [hpc, Pc.remaining, Option.some.injEq] at hk
      exact ⟨17, ⟨hinv, h.entries, rfl⟩, by simp only [Event.ofMain]; omega⟩
  | line hpc => simp [hpc, Pc.remaining] at hk
  | eof hpc => simp [hpc, Pc.remaining] at hk
  | kill hpc => simp [hpc, Pc.remaining] at hk
  | sigchld => exact ⟨k, ⟨hinv, h.entries, hk⟩, Nat.le_refl k⟩
  | drop => exact ⟨k, ⟨hinv, h.entries, hk⟩, Nat.le_refl k⟩
  | stop => exact ⟨k, ⟨hinv, h.entries.stop _, hk⟩, Nat.le_refl k⟩
  | @reap pid hin hmem hstatus =>
      -- the ended child is not in the table
      have hunlisted : ∀ i, (s.table.jobs i).pid ≠ pid := by
        rcases hok with hstopped | hunlisted
        · simp [hstopped] at hstatus
        · exact hunlisted
      refine ⟨k, ⟨hinv, ?_, hk⟩, Nat.le_refl k⟩
      dsimp only
      rw [deletejob_of_unlisted hunlisted]
      exact h.entries
  | sigret => exact ⟨k, ⟨hinv, h.entries, hk⟩, Nat.le_refl k⟩
  | child => exact ⟨k, ⟨hinv, h.entries, hk⟩, Nat.le_refl k⟩

/-- Until the exit the main thread can go on whenever the handler is not active. -/
theorem Refusing.enabled (h : Refusing t s k) (hpc : s.pc ≠ .halted) (hin : s.inHandler = false) :
    ∃ e s', e.ofMain = 1 ∧ shell.step s e = some s' := by
  have hk := h.remaining
  cases hs : s.pc with
  | evalFork bg cmdline =>
      refine ⟨.fork none, { s with pc := .halted }, rfl, ?_⟩
      change State.step s evalMask (.fork none) = _
      simp [State.step, State.forkStep, hin, hs]
  | evalBlock | addCheck | addScan =>
      refine ⟨.main, ?_⟩
      change ∃ s', 1 = 1 ∧ State.step s evalMask .main = some s'
      simp [State.step, State.mainStep, hin, hs]
  | halted => exact (hpc hs).elim
  | _ => simp [hs, Pc.remaining] at hk

/-! ## Runs of the evaluation -/

/-- While the table is full a command line at the prompt ends the shell: no entry is
touched, no prompt comes back, and the main thread has at most 19 steps up to the exit. -/
theorem fullTable_refused {argv : List (List UInt8)} (bg : Bool) (cmdline : List UInt8)
    (unset : Int) (es : List Event) (hreach : shell.Reachable s) (hfull : s.table.Full)
    (hext : External argv)
    (hkeeps : shell.Meets KeepsEntries s (.line argv bg cmdline unset :: es))
    (hrun : shell.run s (.line argv bg cmdline unset :: es) = some s') :
    SameEntries s.table s'.table ∧ ¬ s'.AtPrompt ∧
      total Event.ofMain es ≤ 19 ∧
      (total Event.ofMain es = 19 → s'.pc = .halted) ∧
      (s'.pc ≠ .halted → s'.inHandler = false →
        ∃ e s'', e.ofMain = 1 ∧ shell.step s' e = some s'') := by
  obtain ⟨m, hline, hrun'⟩ := shell.run_cons_some hrun
  have hinv := reachable_inv hreach
  have hm : Refusing s.table m 19 := by
    have hmoves : Moves evalMask s (.line argv bg cmdline unset) m := step_moves hline
    have hminv := moves_inv hinv hmoves
    cases hmoves with
    | line =>
        exact ⟨hminv, .refl _, by simp [hext.evalLine, Pc.remaining]⟩
  have hstep : ∀ s₁ e s₂ k, Refusing s.table s₁ k → KeepsEntries s₁ e →
      shell.step s₁ e = some s₂ → ∃ j, Refusing s.table s₂ j ∧ j + e.ofMain ≤ k :=
    fun _ _ _ _ h hok hs => moves_refusing hfull h hok (step_moves hs)
  obtain ⟨k, hk, hsum⟩ := shell.run_ranked hstep hm (hkeeps.2 m hline) hrun'
  refine ⟨hk.entries, ?_, by omega, ?_, hk.enabled⟩
  · intro hprompt
    have := hk.remaining
    rw [hprompt] at this
    cases this
  · intro hnineteen
    have hzero : k = 0 := by omega
    exact Pc.remaining_eq_zero (hzero ▸ hk.remaining)

/-- A command line in the background up to the next prompt, while `i` entries are in use. -/
def addBackground (i : Nat) : List Event :=
  [.line [ascii ['l', 's']] true (ascii ['l', 's', '&']) 0, .main, .fork (some (i + 1))] ++
    List.replicate (i + 9) .main

/-- Sixteen jobs in the background. -/
def sixteenJobs : List Event := (List.range MAXJOBS).flatMap addBackground

/-- One more, as far as the shell gets. -/
def seventeenth : List Event := [.main, .fork (some 17)] ++ List.replicate 17 .main

theorem sixteenJobs_reachable : shell.Reachable (shell.after start sixteenJobs) :=
  ⟨start, sixteenJobs, start_init _, shell.run_eq_after (by decide +kernel)⟩

/-- The shell with the full table, after `ls` in the foreground. -/
def afterSeventeenth : State :=
  shell.after (shell.after start sixteenJobs)
    (.line [ascii ['l', 's']] false (ascii ['l', 's']) 0 :: seventeenth)

theorem fullTable_refused_seventeenth :
    SameEntries (shell.after start sixteenJobs).table afterSeventeenth.table ∧
      afterSeventeenth.pc = .halted := by
  have hfull : (shell.after start sixteenJobs).table.Full := by
    unfold JobTable.Full
    decide +kernel
  have hext : External [ascii ['l', 's']] := by
    unfold External
    decide
  have h := fullTable_refused false (ascii ['l', 's']) 0 seventeenth sixteenJobs_reachable hfull
    hext (by decide +kernel) (shell.run_eq_after (by decide +kernel))
  exact ⟨h.1, h.2.2.2.1 (by decide)⟩

/-- The shell has left, and the child that it has forked runs outside the table. -/
theorem exists_fullTable_exit :
    ∃ s s', shell.Reachable s ∧ s.AtPrompt ∧ s.table.Full ∧
      shell.run s (.line [ascii ['l', 's']] false (ascii ['l', 's']) 0 :: seventeenth) = some s' ∧
      s'.pc = .halted ∧ s'.status 17 = .running ∧ ∀ i, (s'.table.jobs i).pid ≠ 17 := by
  refine ⟨shell.after start sixteenJobs, afterSeventeenth, sixteenJobs_reachable, ?_, ?_,
    shell.run_eq_after (by decide +kernel), ?_, ?_, ?_⟩
  · unfold State.AtPrompt
    decide +kernel
  · unfold JobTable.Full
    decide +kernel
  · decide +kernel
  · decide +kernel
  · decide +kernel

end CompOrg.Shell
