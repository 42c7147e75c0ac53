import CompOrg.Shell.Invariant

/-! # One foreground job, and empty slots

Two promises about the table. That at most one job is in the foreground holds in
every reachable state. That a slot without a pid is blank fails when the handler
clears an entry which the main thread is about to write to; without that schedule
it holds in every state, and then `fgpid` and `quit` see live jobs only.
-/

namespace CompOrg.Shell

/-- A job of the table is in the foreground. -/
def Foreground (t : JobTable) (i : Slot) : Prop := (t.jobs i).pid ≠ 0 ∧ (t.jobs i).state = .fg

variable {s s' : State} {mask : List Signal} {pid : Int}

theorem Inv.foreground_unique (h : Inv s) {i j : Slot} (hi : Foreground s.table i)
    (hj : Foreground s.table j) : i = j :=
  h.distinct i j hi.1 ((h.fg i hi.1 hi.2).unique (h.fg j hj.1 hj.2))

theorem Inv.not_foreground_at_prompt (h : Inv s) (hpc : s.AtPrompt) (i : Slot) :
    ¬ Foreground s.table i := by
  rintro ⟨hi, hstate⟩
  have hpc : s.pc = .prompt := hpc
  have hmay := h.fg i hi hstate
  rw [hpc] at hmay
  exact hmay

/-- In every reachable state at most one job is in the foreground, and none while
the shell reads a line. -/
theorem reachable_foreground (h : shell.Reachable s) :
    (∀ i j, Foreground s.table i → Foreground s.table j → i = j) ∧
      (s.AtPrompt → ∀ i, ¬ Foreground s.table i) :=
  ⟨fun _ _ => (reachable_inv h).foreground_unique, (reachable_inv h).not_foreground_at_prompt⟩

/-- The shell before its first line. -/
def start : State where
  table := JobTable.initjobs ⟨fun _ => ⟨0, 0, .undef, []⟩, 1⟩
  pc := .prompt
  blocked := []
  inHandler := false
  forked := []
  status _ := .reaped

theorem start_init (mask : List Signal) : (shellMasking mask).init start :=
  ⟨⟨fun _ => ⟨0, 0, .undef, []⟩, 1⟩, rfl, rfl, rfl, rfl, rfl, rfl⟩

/-- A job in the foreground is stopped and continued with `fg %1`. -/
def stopAndContinue : List Event :=
  [.line [ascii ['l', 's']] false (ascii ['l', 's']) 0, .main, .fork (some 100)] ++
    List.replicate 11 .main ++
    [.child 100 .stop, .sigchld, .wait 100, .sigret, .main, .main,
      .line [ascii ['f', 'g'], ascii ['%', '1']] false [] 0, .kill true, .child 100 .cont, .main]

theorem stopAndContinue_reachable : shell.Reachable (shell.after start stopAndContinue) :=
  ⟨start, stopAndContinue, start_init _, shell.run_eq_after (by decide +kernel)⟩

theorem stopAndContinue_foreground :
    (∀ i j, Foreground (shell.after start stopAndContinue).table i →
      Foreground (shell.after start stopAndContinue).table j → i = j) ∧
      ((shell.after start stopAndContinue).AtPrompt →
        ∀ i, ¬ Foreground (shell.after start stopAndContinue).table i) :=
  reachable_foreground stopAndContinue_reachable

example : Foreground (shell.after start stopAndContinue).table 0 := by
  unfold Foreground
  decide +kernel

end CompOrg.Shell
