import CompOrg.Shell.Foreground

/-! # The table mirrors the children

Between `fork` and the first assignment of `addjob` a child exists that the table
does not list. If the handler reaps it there, its pid is added afterwards and never
leaves. Otherwise, whenever the shell reads a line or waits, the table lists exactly
the children that were forked and not reaped. With `SIGCHLD` in the mask of `eval`
the handler cannot run there at all.
-/

namespace CompOrg.Shell

def Listed (t : JobTable) (pid : Int) : Prop := ∃ i, (t.jobs i).pid = pid ∧ pid ≠ 0

/-- Forked and not yet reaped. -/
def Alive (s : State) (pid : Int) : Prop := pid ∈ s.forked ∧ s.status pid ≠ .reaped

/-- The child that `eval` has forked and `addjob` has not listed yet. -/
def Pc.unlisted : Pc → Option Int
  | .addCheck job | .addScan job _ | .addPid job _ => some job.pid
  | _ => none

/-- The handler does not reap a child before `addjob` has stored its pid. -/
def ReapsListed (s : State) : Event → Prop
  | .wait pid => s.status pid = .stopped ∨ s.pc.unlisted ≠ some pid
  | _ => True

instance (s : State) : ∀ e, Decidable (ReapsListed s e)
  | .wait pid => inferInstanceAs (Decidable
      (s.status pid = .stopped ∨ s.pc.unlisted ≠ some pid))
  | .line _ _ _ _ | .eof | .main | .fork _ | .kill _ | .sigchld | .sigret | .child _ _ =>
      isTrue trivial

/-- The children are those listed and the one that is being added, until `eval`
gives up on it. -/
structure Mirror (s : State) : Prop where
  listed : ∀ p, s.pc ≠ .halted → (Listed s.table p ↔ Alive s p ∧ s.pc.unlisted ≠ some p)
  alive : ∀ p, s.pc.unlisted = some p → Alive s p

variable {s s' : State} {t : JobTable} {pid : Int} {mask : List Signal}

/-- A step that changes neither pids nor children, and adds nobody new. -/
theorem Mirror.goto (h : Mirror s) (hpid : ∀ i, (s'.table.jobs i).pid = (s.table.jobs i).pid)
    (halive : ∀ p, Alive s' p ↔ Alive s p)
    (hpc : s'.pc = .halted ∨ s.pc ≠ .halted ∧ s'.pc.unlisted = s.pc.unlisted) : Mirror s' where
  listed p hrun := by
    obtain ⟨hrun', hsame⟩ := hpc.resolve_left hrun
    rw [hsame, halive, ← h.listed p hrun']
    simp only [Listed, hpid]
  alive p hp := by
    rcases hpc with hhalt | ⟨-, hsame⟩
    · simp [hhalt, Pc.unlisted] at hp
    · exact (halive p).mpr (h.alive p (hsame ▸ hp))

/-! ## The main thread -/

theorem listed_setPid {k : Slot} (hk : (t.jobs k).pid = 0) (hpid : pid ≠ 0) (p : Int) :
    Listed (t.setPid k pid) p ↔ Listed t p ∨ p = pid := by
  simp only [Listed, t.setPid_pid]
  constructor
  · rintro ⟨i, hi, hp⟩
    split at hi
    · exact Or.inr hi.symm
    · exact Or.inl ⟨i, hi, hp⟩
  · rintro (⟨i, hi, hp⟩ | rfl)
    · have hik : i ≠ k := fun hik => hp (hi ▸ hik ▸ hk)
      exact ⟨i, by rw [if_neg hik, hi], hp⟩
    · exact ⟨k, by rw [if_pos rfl], hpid⟩

theorem addPid_mirror {job : NewJob} {k : Slot} (hinv : Inv s) (h : Mirror s)
    (hpc : s.pc = .addPid job k) :
    Mirror { s with table := s.table.setPid k job.pid, pc := .addState job k } := by
  have hsound := hinv.sound
  rw [hpc] at hsound
  have hpos := hinv.positive _ hsound.1
  refine ⟨fun p _ => ?_, fun p hp => by simp [Pc.unlisted] at hp⟩
  have hbefore := h.listed p (by simp [hpc])
  have hnew := h.alive job.pid (by rw [hpc]; rfl)
  rw [hpc] at hbefore
  change Listed (s.table.setPid k job.pid) p ↔ Alive s p ∧ Pc.unlisted (.addState job k) ≠ some p
  rw [listed_setPid hsound.2.2 (by omega), hbefore]
  simp only [Pc.unlisted, ne_eq, Option.some.injEq, reduceCtorEq, not_false_eq_true, and_true]
  constructor
  · rintro (⟨halive, -⟩ | rfl)
    · exact halive
    · exact hnew
  · intro halive
    by_cases hp : job.pid = p
    · exact Or.inr hp.symm
    · exact Or.inl ⟨halive, hp⟩

theorem mainStep_mirror (hinv : Inv s) (h : Mirror s) (hs : s.mainStep mask = some s') :
    Mirror s' := by
  unfold State.mainStep at hs
  have hsame : ∀ p, Alive s p ↔ Alive s p := fun _ => Iff.rfl
  cases hpc : s.pc with
  | addPid job k =>
      rw [hpc] at hs
      cases hs
      exact addPid_mirror hinv h hpc
  | addCheck job =>
      rw [hpc] at hs
      cases hs
      refine h.goto (fun _ => rfl) hsame ?_
      rw [hpc]
      dsimp only
      split
      · exact Or.inl rfl
      · exact Or.inr ⟨by simp, rfl⟩
  | addScan job i =>
      rw [hpc] at hs
      cases hs
      refine h.goto (fun _ => rfl) hsame ?_
      rw [hpc]
      dsimp only
      split
      · exact Or.inr ⟨by simp, rfl⟩
      · split
        · exact Or.inr ⟨by simp, rfl⟩
        · exact Or.inl rfl
  | addState job k =>
      rw [hpc] at hs
      cases hs
      exact h.goto (fun i => s.table.setState_pid k i _) hsame
        (Or.inr ⟨by simp [hpc], by rw [hpc]; rfl⟩)
  | addJid job k =>
      rw [hpc] at hs
      cases hs
      exact h.goto (fun i => s.table.takeJid_pid k i) hsame
        (Or.inr ⟨by simp [hpc], by rw [hpc]; rfl⟩)
  | addWrap job k =>
      rw [hpc] at hs
      cases hs
      exact h.goto (fun i => by simp) hsame (Or.inr ⟨by simp [hpc], by rw [hpc]; rfl⟩)
  | addCopy job k =>
      rw [hpc] at hs
      cases hs
      exact h.goto (fun i => s.table.copyCmdline_pid k i _) hsame
        (Or.inr ⟨by simp [hpc], by rw [hpc]; rfl⟩)
  | evalBlock bg cmdline | evalUnblock job | bgfgWait i | bgfgPrint i =>
      rw [hpc] at hs
      cases hs
      exact h.goto (fun _ => rfl) hsame (Or.inr ⟨by simp [hpc], by rw [hpc]; rfl⟩)
  | evalWait job | waitLookup pid | waitState i pid | waitPid i pid =>
      rw [hpc] at hs
      cases hs
      refine h.goto (fun _ => rfl) hsame (Or.inr ⟨by simp [hpc], ?_⟩)
      rw [hpc]
      dsimp only
      split <;> rfl
  | bgfgSet fg i =>
      rw [hpc] at hs
      cases hs
      refine h.goto (fun j => s.table.setState_pid i j _) hsame (Or.inr ⟨by simp [hpc], ?_⟩)
      rw [hpc]
      cases fg <;> rfl
  | prompt | evalFork bg cmdline | bgfgKill fg i | halted =>
      rw [hpc] at hs
      cases hs

/-! ## Children come and go -/

theorem alive_update {c : ChildStatus} (hmem : pid ∈ s.forked) (hold : s.status pid ≠ .reaped)
    (hnew : c ≠ .reaped) (p : Int) :
    (p ∈ s.forked ∧ Function.update s.status pid c p ≠ .reaped) ↔ Alive s p := by
  rw [Function.update_apply, Alive]
  split
  next hp => simp [hp, hmem, hold, hnew]
  next => rfl

theorem fork_mirror {bg : Bool} {cmdline : List UInt8} (h : Mirror s)
    (hpc : s.pc = .evalFork bg cmdline) (hnew : pid ∉ s.forked) :
    Mirror { s with
      forked := pid :: s.forked
      status := Function.update s.status pid .running
      pc := .addCheck ⟨pid, bg, cmdline⟩ } := by
  refine ⟨fun p _ => ?_, ?_⟩
  · have hbefore := h.listed p (by simp [hpc])
    rw [hpc] at hbefore
    refine hbefore.trans ?_
    simp only [Alive, Pc.unlisted, Function.update_apply, List.mem_cons]
    by_cases hp : p = pid
    · subst hp
      simp [hnew]
    · simp [hp, Ne.symm hp]
  · rintro p ⟨⟩
    exact ⟨List.mem_cons_self, by simp⟩

theorem listed_deletejob (hd : t.Distinct) (hpid : 0 < pid) (p : Int) :
    Listed (t.deletejob pid).1 p ↔ Listed t p ∧ p ≠ pid := by
  simp only [Listed, JobTable.deletejob_jobs hd hpid]
  constructor
  · rintro ⟨i, hi, hp⟩
    split at hi
    next => exact (hp hi.symm).elim
    next hne => exact ⟨⟨i, hi, hp⟩, fun heq => hne (hi.trans heq)⟩
  · rintro ⟨⟨i, hi, hp⟩, hne⟩
    exact ⟨i, by rw [if_neg (fun heq => hne (hi.symm.trans heq)), hi], hp⟩

theorem reap_mirror (hinv : Inv s) (h : Mirror s) (hmem : pid ∈ s.forked)
    (hunlisted : s.pc.unlisted ≠ some pid) :
    Mirror { s with
      status := Function.update s.status pid .reaped
      table := (s.table.deletejob pid).1 } := by
  have halive : ∀ p, (p ∈ s.forked ∧ Function.update s.status pid .reaped p ≠ .reaped) ↔
      Alive s p ∧ p ≠ pid := by
    intro p
    rw [Function.update_apply, Alive]
    split
    next hp => simp [hp]
    next hp => simp [hp]
  refine ⟨fun p hrun => ?_, fun p hp => ?_⟩
  · refine (listed_deletejob hinv.distinct (hinv.positive pid hmem) p).trans ?_
    rw [h.listed p hrun]
    exact ⟨fun ⟨⟨ha, hu⟩, hne⟩ => ⟨(halive p).mpr ⟨ha, hne⟩, hu⟩,
      fun ⟨ha, hu⟩ => ⟨⟨((halive p).mp ha).1, hu⟩, ((halive p).mp ha).2⟩⟩
  · exact (halive p).mpr ⟨h.alive p hp, fun heq => hunlisted (heq ▸ hp)⟩

/-! ## Steps and runs -/

/-- A step that changes only the status of a child that stays unreaped. -/
theorem Mirror.update {c : ChildStatus} (h : Mirror s) (hmem : pid ∈ s.forked)
    (hold : s.status pid ≠ .reaped) (hnew : c ≠ .reaped)
    (hpid : ∀ i, (s'.table.jobs i).pid = (s.table.jobs i).pid) (hforked : s'.forked = s.forked)
    (hstatus : s'.status = Function.update s.status pid c) (hpc : s'.pc = s.pc) : Mirror s' := by
  have halive : ∀ p, Alive s' p ↔ Alive s p := by
    intro p
    rw [Alive, hforked, hstatus]
    exact alive_update hmem hold hnew p
  by_cases hhalt : s.pc = .halted
  · exact h.goto hpid halive (Or.inl (hpc.trans hhalt))
  · exact h.goto hpid halive (Or.inr ⟨hhalt, by rw [hpc]⟩)

theorem Change.apply_ne_reaped {change : Change} {c d : ChildStatus}
    (h : change.apply c = some d) : c ≠ .reaped ∧ d ≠ .reaped := by
  cases change <;> cases c <;> simp_all [Change.apply] <;> simp [← h]

theorem moves_mirror {e : Event} (hinv : Inv s) (h : Mirror s) (hok : ReapsListed s e)
    (hm : Moves mask s e s') : Mirror s' := by
  have hsame : ∀ p, Alive s p ↔ Alive s p := fun _ => Iff.rfl
  cases hm with
  | @line argv bg cmdline unset hpc =>
      refine h.goto (fun _ => rfl) hsame (Or.inr ⟨by simp [hpc], ?_⟩)
      rw [hpc]
      rcases evalLine_cases s argv bg cmdline unset with hl | hl | hl | ⟨_, _, _, _, hl⟩ <;>
        rw [hl] <;> rfl
  | eof => exact h.goto (fun _ => rfl) hsame (Or.inl rfl)
  | main hin hs => exact mainStep_mirror hinv h hs
  | forkFail => exact h.goto (fun _ => rfl) hsame (Or.inl rfl)
  | fork hin hpc hpid hnew => exact fork_mirror h hpc hnew
  | @kill fg i ok hpc =>
      cases ok with
      | true => exact h.goto (fun _ => rfl) hsame (Or.inr ⟨by simp [hpc], by rw [hpc]; rfl⟩)
      | false => exact h.goto (fun _ => rfl) hsame (Or.inl rfl)
  | sigchld hblocked hpc => exact h.goto (fun _ => rfl) hsame (Or.inr ⟨hpc, rfl⟩)
  | sigret =>
      by_cases hhalt : s.pc = .halted
      · exact h.goto (fun _ => rfl) hsame (Or.inl hhalt)
      · exact h.goto (fun _ => rfl) hsame (Or.inr ⟨hhalt, rfl⟩)
  | drop hin hmem hstatus =>
      exact h.update hmem (by simp [hstatus]) (by simp) (fun _ => rfl) rfl rfl rfl
  | @stop pid i hin hmem hstatus =>
      exact h.update hmem (by simp [hstatus]) (by simp) (fun j => s.table.setState_pid i j .st) rfl
        rfl rfl
  | @reap pid hin hmem hstatus =>
      have hstopped : s.status pid ≠ .stopped := by rcases hstatus with hs | hs <;> simp [hs]
      exact reap_mirror hinv h hmem (hok.resolve_left hstopped)
  | child hmem happly =>
      have hne := Change.apply_ne_reaped happly
      exact h.update hmem hne.1 hne.2 (fun _ => rfl) rfl rfl rfl

theorem init_mirror (h : (shellMasking mask).init s) : Mirror s := by
  obtain ⟨stale, -, htable, hpc, -, -, hforked⟩ := h
  refine ⟨fun p _ => ?_, fun p hp => by simp [hpc, Pc.unlisted] at hp⟩
  refine iff_of_false ?_ fun ⟨⟨hmem, _⟩, _⟩ => by simp [hforked] at hmem
  rintro ⟨i, hi, hp⟩
  rw [htable] at hi
  exact hp hi.symm

theorem settled_unlisted (h : s.AtPrompt ∨ s.InWaitfg) : s.pc ≠ .halted ∧ s.pc.unlisted = none := by
  unfold State.AtPrompt State.InWaitfg at h
  cases hpc : s.pc <;> simp_all [Pc.unlisted]

theorem Mirror.settled (h : Mirror s) (hs : s.AtPrompt ∨ s.InWaitfg) (p : Int) :
    Listed s.table p ↔ Alive s p := by
  obtain ⟨hrun, hnone⟩ := settled_unlisted hs
  rw [h.listed p hrun, hnone]
  simp

/-- In every run in which no child is reaped before it is listed, the table lists
exactly the unreaped children whenever the shell reads a line or waits. -/
theorem reachable_mirror (h : shell.ReachableWhere ReapsListed s)
    (hsettled : s.AtPrompt ∨ s.InWaitfg) (p : Int) : Listed s.table p ↔ Alive s p := by
  have hinit : ∀ s, shell.init s → Inv s ∧ Mirror s :=
    fun _ hi => ⟨init_inv hi, init_mirror hi⟩
  have hstep : ∀ s e t, Inv s ∧ Mirror s → ReapsListed s e → shell.step s e = some t →
      Inv t ∧ Mirror t := fun _ _ _ hi hok hs =>
    ⟨moves_inv hi.1 (step_moves hs), moves_mirror hi.1 hi.2 hok (step_moves hs)⟩
  exact (shell.reachableWhere_invariant hinit hstep h).2.settled hsettled p

/-- A foreground job ends while the shell waits for it. -/
def exitInWaitfg : List Event :=
  [.line [ascii ['l', 's']] false (ascii ['l', 's']) 0, .main, .fork (some 100)] ++
    List.replicate 10 .main ++ [.child 100 .exit, .sigchld, .wait 100]

theorem exitInWaitfg_reachableWhere :
    shell.ReachableWhere ReapsListed (shell.after start exitInWaitfg) :=
  ⟨start, exitInWaitfg, start_init _, by decide +kernel, shell.run_eq_after (by decide +kernel)⟩

theorem exitInWaitfg_mirror :
    Listed (shell.after start exitInWaitfg).table 100 ↔
      Alive (shell.after start exitInWaitfg) 100 := by
  have hpc : (shell.after start exitInWaitfg).pc = .waitState 0 100 := by decide +kernel
  exact reachable_mirror exitInWaitfg_reachableWhere
    (Or.inr (by rw [State.InWaitfg, hpc]; trivial)) 100

/-- The job ends right after `fork`, before the parent has run again. -/
def exitBeforeAddjob : List Event :=
  [.line [ascii ['l', 's']] false (ascii ['l', 's']) 0, .main, .fork (some 100),
    .child 100 .exit, .sigchld, .wait 100, .sigret] ++ List.replicate 10 .main

/-- The shell waits for a job that was reaped before it was listed. -/
theorem exists_reachable_not_mirror :
    ¬ ∀ s, shell.Reachable s → s.AtPrompt ∨ s.InWaitfg → ∀ p, Listed s.table p ↔ Alive s p := by
  intro h
  have hreach : shell.Reachable (shell.after start exitBeforeAddjob) :=
    ⟨start, exitBeforeAddjob, start_init _, shell.run_eq_after (by decide +kernel)⟩
  have hpc : (shell.after start exitBeforeAddjob).pc = .waitState 0 100 := by decide +kernel
  have hlisted : ((shell.after start exitBeforeAddjob).table.jobs 0).pid = 100 := by
    decide +kernel
  have hreaped : (shell.after start exitBeforeAddjob).status 100 = .reaped := by decide +kernel
  have hmirror := h _ hreach (Or.inr (by rw [State.InWaitfg, hpc]; trivial)) 100
  exact (hmirror.mp ⟨0, hlisted, by decide⟩).2 hreaped

/-! ## With `SIGCHLD` blocked -/

/-- From `fork` to the first assignment of `addjob`. -/
def Pc.Forking : Pc → Prop
  | .evalFork _ _ | .addCheck _ | .addScan _ _ | .addPid _ _ => True
  | _ => False

/-- The handler cannot run there. -/
def Shielded (s : State) : Prop := s.pc.Forking → .sigchld ∈ s.blocked ∧ s.inHandler = false

theorem forking_of_unlisted {pc : Pc} {p : Int} (h : pc.unlisted = some p) : pc.Forking := by
  cases pc <;> simp_all [Pc.unlisted, Pc.Forking]

theorem mainStep_shielded (hmask : .sigchld ∈ mask) (h : Shielded s) (hin : s.inHandler = false)
    (hs : s.mainStep mask = some s') : Shielded s' := by
  unfold State.mainStep at hs
  intro hforking
  cases hpc : s.pc with
  | evalBlock bg cmdline =>
      rw [hpc] at hs
      cases hs
      exact ⟨List.mem_append_left _ hmask, hin⟩
  | addCheck job | addScan job i =>
      have hbefore := h (by rw [hpc]; trivial)
      rw [hpc] at hs
      cases hs
      exact hbefore
  | evalWait job | waitLookup pid | waitState i pid | waitPid i pid | bgfgSet fg i =>
      rw [hpc] at hs
      cases hs
      dsimp only at hforking
      split at hforking <;> exact hforking.elim
  | addPid job i | addState job i | addJid job i | addWrap job i | addCopy job i | evalUnblock job
  | bgfgWait i | bgfgPrint i =>
      rw [hpc] at hs
      cases hs
      exact hforking.elim
  | prompt | evalFork bg cmdline | bgfgKill fg i | halted =>
      rw [hpc] at hs
      cases hs

theorem moves_shielded {e : Event} (hmask : .sigchld ∈ mask) (h : Shielded s)
    (hm : Moves mask s e s') : Shielded s' := by
  cases hm with
  | @line argv bg cmdline unset hpc =>
      intro hforking
      rcases evalLine_cases s argv bg cmdline unset with hl | hl | hl | ⟨_, _, _, _, hl⟩ <;>
        rw [hl] at hforking <;> exact hforking.elim
  | main hin hs => exact mainStep_shielded hmask h hin hs
  | eof | forkFail => exact fun hforking => hforking.elim
  | fork hin hpc => exact fun _ => h (by rw [hpc]; trivial)
  | @kill fg i ok hpc =>
      intro hforking
      cases ok <;> exact hforking.elim
  | sigchld hblocked => exact fun hforking => (hblocked (h hforking).1).elim
  | sigret hin | drop hin =>
      intro hforking
      have := (h hforking).2
      simp [hin] at this
  | stop | reap | child => exact h

/-- Had `eval` put `SIGCHLD` into its mask, the table would mirror the children in
every run. -/
theorem masked_mirror (hmask : .sigchld ∈ mask) (h : (shellMasking mask).Reachable s)
    (hsettled : s.AtPrompt ∨ s.InWaitfg) (p : Int) : Listed s.table p ↔ Alive s p := by
  have hinit : ∀ s, (shellMasking mask).init s → (Inv s ∧ Mirror s) ∧ Shielded s := by
    intro s hi
    refine ⟨⟨init_inv hi, init_mirror hi⟩, fun hforking => ?_⟩
    obtain ⟨stale, -, -, hpc, -⟩ := hi
    rw [hpc] at hforking
    exact hforking.elim
  have hstep : ∀ s e t, (Inv s ∧ Mirror s) ∧ Shielded s → (shellMasking mask).step s e = some t →
      (Inv t ∧ Mirror t) ∧ Shielded t := by
    rintro s e t ⟨⟨hinv, hmirror⟩, hshield⟩ hs
    have hm := step_moves hs
    refine ⟨⟨moves_inv hinv hm, moves_mirror hinv hmirror ?_ hm⟩, moves_shielded hmask hshield hm⟩
    -- the handler waits for nobody while a child is unlisted
    cases hm with
    | @drop pid hin | @stop pid i hin | @reap pid hin =>
        refine Or.inr fun hunlisted => ?_
        have := (hshield (forking_of_unlisted hunlisted)).2
        simp [hin] at this
    | _ => trivial
  exact ((shellMasking mask).reachable_invariant hinit hstep h).1.2.settled hsettled p

end CompOrg.Shell
