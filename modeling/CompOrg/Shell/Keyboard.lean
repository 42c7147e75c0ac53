import CompOrg.Shell.Nested

/-! # Keyboard signals and the group of the foreground job

`sigint_handler` and `sigtstp_handler` leave the shell when `kill` finds no member of the
group that `fgpid` named. That happens where the child has not executed `setpgrp` yet, was
reaped after the lookup, or was gone before it while the table still listed it; in all
other runs the shell survives its keyboard.
-/

namespace CompOrg.Shell

section Reaches

variable {mask : List Signal} {s s' : Nested} {pid : Int}

/-! ## The group of a job that a handler signals -/

namespace Nested

/-- A lookup finds no reaped child, no child is reaped between its lookup and its
signal, and it has executed `setpgrp` when it is signalled. -/
def Reaches (s : Nested) : NestedEvent → Prop
  | .waitpid pid => s.shell.status pid = .stopped ∨ ¬ s.Held pid
  | .fgpid => 0 < s.shell.table.fgpid → s.shell.status s.shell.table.fgpid ≠ .reaped
  | .kill => ∀ h ∈ s.handlers.head?, ∀ pid ∈ h.pid, 0 < pid → pid ∈ s.grouped
  | _ => True

instance (s : Nested) : ∀ e, Decidable (s.Reaches e)
  | .waitpid pid => inferInstanceAs (Decidable (s.shell.status pid = .stopped ∨ ¬ s.Held pid))
  | .fgpid => inferInstanceAs (Decidable
      (0 < s.shell.table.fgpid → s.shell.status s.shell.table.fgpid ≠ .reaped))
  | .kill => inferInstanceAs (Decidable
      (∀ h ∈ s.handlers.head?, ∀ pid ∈ h.pid, 0 < pid → pid ∈ s.grouped))
  | .thread _ | .child _ _ | .setpgrp _ | .sigchld | .record | .sigret | .key _ => isTrue trivial

/-- Every child that is about to be signalled is there. -/
def Unreaped (s : Nested) : Prop := ∀ p, s.Held p → s.shell.status p ≠ .reaped

/-- The shell is lost: some handler will signal a child that is gone, or has. -/
def Lost (s : Nested) : Prop :=
  s.terminated = true ∨ ∃ p, s.Held p ∧ s.shell.status p = .reaped

end Nested

theorem Nested.Unreaped.of_subset (h : s.Unreaped)
    (hsub : ∀ h ∈ s'.handlers, h.pid ≠ none → h ∈ s.handlers)
    (hstatus : s'.shell.status = s.shell.status) : s'.Unreaped := by
  intro p hp
  rw [hstatus]
  exact h p (held_of_subset hsub hp)

theorem Nested.Unreaped.update (h : s.Unreaped) {c : ChildStatus}
    (hframes : s'.handlers = s.handlers)
    (hstatus : s'.shell.status = Function.update s.shell.status pid c)
    (hfree : c ≠ .reaped ∨ ¬ s.Held pid) : s'.Unreaped := by
  intro p hp
  have hheld : s.Held p := held_of_subset (fun f hf _ => hframes ▸ hf) hp
  rw [hstatus]
  by_cases heq : p = pid
  · rw [heq, Function.update_self]
    exact hfree.resolve_right fun hnot => hnot (heq ▸ hheld)
  · rw [Function.update_of_ne heq]
    exact h p hheld

/-- A step that meets the condition keeps the children that are about to be signalled,
and does not leave the shell. -/
theorem nestedMoves_unreaped {e : NestedEvent} (hinv : NestedInv s) (h : s.Unreaped)
    (hok : s.Reaches e) (hm : NestedMoves mask s e s') :
    s'.Unreaped ∧ s'.terminated = s.terminated := by
  cases hm with
  | thread hframes => exact ⟨fun p hp => (held_nil hframes hp).elim, rfl⟩
  | child hs =>
      obtain ⟨c, -, hc, rfl⟩ := child_same hs
      exact ⟨h.update rfl rfl (Or.inl hc), rfl⟩
  | setpgrp => exact ⟨h.of_subset (fun _ hf _ => hf) rfl, rfl⟩
  | sigchld hs =>
      obtain ⟨-, -, rfl⟩ := sigchld_same hs
      exact ⟨fun p hp => h p ((held_cons rfl rfl).mp hp), rfl⟩
  | waitpid hframes htaken hs =>
      obtain ⟨-, ⟨-, rfl⟩ | ⟨hstatus, rfl⟩⟩ := waitpid_cases hs
      · exact ⟨h.update rfl rfl (Or.inl (by decide)), rfl⟩
      · -- the child has ended, so no handler holds it
        exact ⟨h.update rfl rfl
          (Or.inr (hok.resolve_left (by rcases hstatus with hs | hs <;> simp [hs]))), rfl⟩
  | @record rest pid status hframes htaken =>
      refine ⟨h.of_subset (fun f hf _ => ?_) (record_same s.shell pid status).2.2, rfl⟩
      dsimp only at hf
      split at hf
      · exact hf
      · exact hframes ▸ List.mem_cons_of_mem _ hf
  | sigret hframes htaken hs =>
      rw [sigret_same hs]
      exact ⟨h.of_subset (fun f hf _ => hframes ▸ List.mem_cons_of_mem _ hf) rfl, rfl⟩
  | key => exact ⟨fun p hp => h p ((held_cons rfl rfl).mp hp), rfl⟩
  | @fgpid key rest hframes =>
      refine ⟨fun p hp => ?_, rfl⟩
      obtain ⟨hpos, f, hf, hpid⟩ := hp
      rcases List.mem_cons.mp hf with rfl | hf
      · obtain rfl := Option.some.inj hpid
        exact hok hpos
      · exact h p ⟨hpos, f, hframes ▸ List.mem_cons_of_mem _ hf, hpid⟩
  | @killFails key pid rest hframes hpid hmember =>
      have hheld : s.Held pid := ⟨hpid, .key key (some pid), by simp [hframes], rfl⟩
      have hgrouped : pid ∈ s.grouped := hok (.key key (some pid)) (by simp [hframes]) pid rfl hpid
      exact (hmember ⟨hgrouped, hinv.held pid hheld, h pid hheld⟩).elim
  | kill hframes =>
      exact ⟨h.of_subset (fun f hf _ => hframes ▸ List.mem_cons_of_mem _ hf) rfl, rfl⟩

/-! ## No way back -/

theorem lost_of_held {p : Int} (hheld : s.Held p) (hreaped : s.shell.status p = .reaped) :
    s.Lost := Or.inr ⟨p, hheld, hreaped⟩

theorem lost_of_update {p : Int} {c : ChildStatus} (hheld : s.Held p)
    (hreaped : s.shell.status p = .reaped) (hframes : s'.handlers = s.handlers)
    (hstatus : s'.shell.status = Function.update s.shell.status pid c)
    (hpid : s.shell.status pid ≠ .reaped) : s'.Lost := by
  have hne : p ≠ pid := fun heq => hpid (heq ▸ hreaped)
  apply lost_of_held (held_of_subset (fun f hf _ => hframes ▸ hf) hheld)
  rw [hstatus, Function.update_of_ne hne]
  exact hreaped

/-- A reaped child stays reaped, and the handler that holds it can only fail. -/
theorem nestedMoves_lost {e : NestedEvent} {p : Int} (hheld : s.Held p)
    (hreaped : s.shell.status p = .reaped) (hm : NestedMoves mask s e s') : s'.Lost := by
  cases hm with
  | thread hframes => exact (held_nil hframes hheld).elim
  | child hs =>
      obtain ⟨c, hpid, -, rfl⟩ := child_same hs
      exact lost_of_update hheld hreaped rfl rfl hpid
  | setpgrp => exact lost_of_held hheld hreaped
  | sigchld hs =>
      obtain ⟨-, -, rfl⟩ := sigchld_same hs
      exact lost_of_held ((held_cons rfl rfl).mpr hheld) hreaped
  | waitpid hframes htaken hs =>
      obtain ⟨-, ⟨hstatus, rfl⟩ | ⟨hstatus, rfl⟩⟩ := waitpid_cases hs
      · exact lost_of_update hheld hreaped rfl rfl (by simp [hstatus])
      · exact lost_of_update hheld hreaped rfl rfl (by rcases hstatus with hs | hs <;> simp [hs])
  | @record rest pid status hframes htaken =>
      refine lost_of_held (held_of_subset (fun f hf hpid => ?_) hheld)
        ((congrFun (record_same s.shell pid status).2.2 p).trans hreaped)
      dsimp only
      split
      · exact hf
      · rcases List.mem_cons.mp (hframes ▸ hf) with rfl | hf
        · exact (hpid rfl).elim
        · exact hf
  | @sigret rest shell hframes htaken hs =>
      rw [sigret_same hs]
      exact lost_of_held ((held_cons rfl hframes).mp hheld) hreaped
  | key => exact lost_of_held ((held_cons rfl rfl).mpr hheld) hreaped
  | @fgpid key rest hframes =>
      refine lost_of_held (held_of_subset (fun f hf hpid => ?_) hheld) hreaped
      rcases List.mem_cons.mp (hframes ▸ hf) with rfl | hf
      · exact (hpid rfl).elim
      · exact List.mem_cons_of_mem _ hf
  | killFails => exact Or.inl rfl
  | @kill key pid rest hframes hmember =>
      obtain ⟨hpos, f, hf, hpid⟩ := hheld
      rcases List.mem_cons.mp (hframes ▸ hf) with rfl | hf
      · -- the handler that returns would have signalled the reaped child
        obtain rfl := Option.some.inj hpid
        exact ((hmember hpos).2.2 hreaped).elim
      · exact lost_of_held ⟨hpos, f, hf, hpid⟩ hreaped

/-- A step that misses the condition loses the shell. -/
theorem nestedMoves_miss {e : NestedEvent} (hmiss : ¬ s.Reaches e)
    (hm : NestedMoves mask s e s') : s'.Lost := by
  cases hm with
  | thread | child | setpgrp | sigchld | record | sigret | key => exact (hmiss trivial).elim
  | @waitpid pid rest r hframes htaken hs =>
      simp only [Nested.Reaches, not_or, not_not] at hmiss
      obtain ⟨-, ⟨hstatus, -⟩ | ⟨-, rfl⟩⟩ := waitpid_cases hs
      · exact (hmiss.1 hstatus).elim
      · exact lost_of_held hmiss.2 (Function.update_self pid _ _)
  | @fgpid key rest hframes =>
      simp only [Nested.Reaches, Classical.not_imp, not_not] at hmiss
      exact lost_of_held ⟨hmiss.1, _, List.mem_cons_self, rfl⟩ hmiss.2
  | killFails => exact Or.inl rfl
  | @kill key pid rest hframes hmember =>
      refine (hmiss ?_).elim
      intro f hf p hp hpos
      rw [hframes, List.head?_cons, Option.mem_some_iff] at hf
      subst hf
      obtain rfl := Option.some.inj hp
      exact (hmember hpos).1

end Reaches

/-! ## Runs -/

/-- A shell is left through a keyboard handler only in runs that miss the condition; and
a run that misses it cannot come out of the handlers again. -/
theorem keyboard_safe_iff {s t : Nested} {es : List NestedEvent} (hinit : nestedShell.init s)
    (hrun : nestedShell.run s es = some t) :
    (nestedShell.Meets Nested.Reaches s es → t.terminated = false) ∧
      (t.terminated = false → t.handlers = [] → nestedShell.Meets Nested.Reaches s es) := by
  have hinv : ∀ s e t, NestedInv s → nestedShell.step s e = some t → NestedInv t :=
    fun _ _ _ h hs => nestedMoves_inv h (nested_moves hs)
  constructor
  · intro hmeets
    have hstep : ∀ s e t, (NestedInv s ∧ s.Unreaped ∧ s.terminated = false) → s.Reaches e →
        nestedShell.step s e = some t → NestedInv t ∧ t.Unreaped ∧ t.terminated = false := by
      intro s e t h hok hs
      have hmoves := nested_moves hs
      obtain ⟨hkept, hsame⟩ := nestedMoves_unreaped h.1 h.2.1 hok hmoves
      exact ⟨nestedMoves_inv h.1 hmoves, hkept, hsame.trans h.2.2⟩
    have hstart : NestedInv s ∧ s.Unreaped ∧ s.terminated = false :=
      ⟨init_nestedInv hinit, fun p hp => (held_nil hinit.2.1 hp).elim, hinit.2.2.2.2⟩
    exact (nestedShell.run_invariant hstep hstart hmeets hrun).2.2
  · intro hterm hframes
    have hlost : ∀ s e t, NestedInv s → s.Lost → nestedShell.step s e = some t → t.Lost := by
      rintro s e t - hlost hs
      obtain ⟨hrunning, hmoves⟩ := nestedStep_moves hs
      rcases hlost with hterm | ⟨p, hheld, hreaped⟩
      · simp [hrunning] at hterm
      · exact nestedMoves_lost hheld hreaped hmoves
    have hmiss : ∀ s e t, NestedInv s → ¬ s.Reaches e → nestedShell.step s e = some t → t.Lost :=
      fun _ _ _ _ hmiss hs => nestedMoves_miss hmiss (nested_moves hs)
    refine nestedShell.meets_of_run hinv hlost hmiss (init_nestedInv hinit) hrun ?_
    rintro (hleft | ⟨p, hheld, -⟩)
    · simp [hterm] at hleft
    · exact held_nil hframes hheld

/-- The shell before its first line, with no handler active. -/
def nestedStart : Nested := ⟨start, [], none, [], false⟩

theorem nestedStart_init : nestedShell.init nestedStart := ⟨start_init _, rfl, rfl, rfl, rfl⟩

/-- A foreground job up to the loop of `waitfg`, with or without its `setpgrp`. -/
def foregroundJob (setpgrp : List NestedEvent) : List NestedEvent :=
  [.thread (.line [ascii ['l', 's']] false (ascii ['l', 's']) 0), .thread .main,
    .thread (.fork (some 100))] ++ setpgrp ++ List.replicate 10 (.thread .main)

/-- Ctrl-c arrives inside the handler of ctrl-z, and both reach the job; the second one
reaches a zombie. -/
def bothKeys : List NestedEvent :=
  foregroundJob [.setpgrp 100] ++
    [.key .sigtstp, .fgpid, .key .sigint, .fgpid, .kill, .child 100 .kill, .kill, .sigchld,
      .waitpid 100, .record, .sigret]

theorem bothKeys_safe : nestedShell.Meets Nested.Reaches nestedStart bothKeys ∧
    (nestedShell.after nestedStart bothKeys).terminated = false := by
  have hmeets : nestedShell.Meets Nested.Reaches nestedStart bothKeys := by decide +kernel
  exact ⟨hmeets, (keyboard_safe_iff nestedStart_init
    (nestedShell.run_eq_after (by decide +kernel))).1 hmeets⟩

/-- Ctrl-c arrives before the child has executed `setpgrp`. -/
def keyBeforeSetpgrp : List NestedEvent := foregroundJob [] ++ [.key .sigint, .fgpid, .kill]

theorem exists_reachable_terminated :
    ¬ ∀ s, nestedShell.Reachable s → s.terminated = false := by
  intro h
  have hterm : (nestedShell.after nestedStart keyBeforeSetpgrp).terminated = true := by
    decide +kernel
  have hsafe := h _ ⟨nestedStart, keyBeforeSetpgrp, nestedStart_init,
    nestedShell.run_eq_after (by decide +kernel)⟩
  simp [hterm] at hsafe

/-! ## Entries that outlive their child -/

/-- No child is reaped before it is listed or while a handler is about to signal it, no
handler looks a job up between the `waitpid` and the `deletejob` of its end, and a child
has executed `setpgrp` when it is signalled. -/
def Nested.Undisturbed (s : Nested) : NestedEvent → Prop
  | .waitpid pid =>
      s.shell.status pid = .stopped ∨ ¬ s.Held pid ∧ s.shell.pc.unlisted ≠ some pid
  | .fgpid => ∀ r ∈ s.taken, r.2 = .stopped
  | .kill => s.Reaches .kill
  | _ => True

section Undisturbed

variable {s s' : Nested}

theorem atomic_inv (h : NestedInv s) : Inv s.atomic := by
  unfold Nested.atomic
  split
  · exact h.shell
  · exact h.shell.record _ _

theorem atomic_same (s : Nested) : s.atomic.pc = s.shell.pc ∧
    s.atomic.forked = s.shell.forked ∧ s.atomic.status = s.shell.status := by
  unfold Nested.atomic
  split
  · exact ⟨rfl, rfl, rfl⟩
  · exact record_same _ _ _

theorem atomic_pid (h : ∀ r ∈ s.taken, r.2 = .stopped) (i : Slot) :
    (s.atomic.table.jobs i).pid = (s.shell.table.jobs i).pid := by
  unfold Nested.atomic
  split
  next => rfl
  next pid status htaken =>
    obtain rfl : status = .stopped := h (pid, status) htaken
    unfold State.record
    dsimp only
    split
    · rfl
    · exact s.shell.table.setState_pid _ i .st

theorem atomic_mirror {e : NestedEvent} (hinv : NestedInv s) (h : Mirror s.atomic)
    (hok : s.Undisturbed e) (hs : nestedShell.step s e = some s') : Mirror s'.atomic := by
  have hstep := atomic_simulates s e s' hinv hs
  have hmirror : ∀ d, ReapsListed s.atomic d → shell.step s.atomic d = some s'.atomic →
      Mirror s'.atomic := fun d hlisted hd =>
    moves_mirror (atomic_inv hinv) h hlisted (step_moves hd)
  cases e with
  | thread e =>
      refine hmirror e ?_ hstep
      cases nested_moves hs with
      | thread _ he => cases e <;> trivial
  | waitpid pid =>
      obtain ⟨hpc, -, hstatus⟩ := atomic_same s
      refine hmirror (.wait pid) ?_ hstep
      unfold ReapsListed
      rw [hstatus, hpc]
      exact hok.imp_right And.right
  | child pid change => exact hmirror (.child pid change) trivial hstep
  | sigchld => exact hmirror .sigchld trivial hstep
  | sigret => exact hmirror .sigret trivial hstep
  | setpgrp | record | key | fgpid | kill =>
      have hsame : s'.atomic = s.atomic := hstep
      exact hsame ▸ h

/-- Where the table mirrors the children, a lookup finds no reaped child. -/
theorem Nested.Undisturbed.reaches {e : NestedEvent} (hok : s.Undisturbed e) (hinv : NestedInv s)
    (h : Mirror s.atomic) (hs : nestedShell.step s e = some s') : s.Reaches e := by
  cases e with
  | waitpid pid => exact hok.imp_right And.left
  | kill => exact hok
  | fgpid =>
      intro hpos
      obtain ⟨i, hi⟩ := fgpid_listed hpos
      obtain ⟨hpc, -, hstatus⟩ := atomic_same s
      have hrunning : s.atomic.pc ≠ .halted := by
        rw [hpc]
        cases nested_moves hs with
        | fgpid hframes => exact hinv.running (by simp [hframes])
      have hlisted : Listed s.atomic.table s.shell.table.fgpid :=
        ⟨i, (atomic_pid hok i).trans hi, by omega⟩
      have halive := ((h.listed _ hrunning).mp hlisted).1.2
      rwa [hstatus] at halive
  | thread | child | setpgrp | sigchld | record | sigret | key => trivial

/-- What makes a keyboard handler leave the shell is a child that was reaped too early or
has not executed `setpgrp` yet. -/
theorem undisturbed_terminated (h : nestedShell.ReachableWhere Nested.Undisturbed s) :
    s.terminated = false := by
  have hinit : ∀ s, nestedShell.init s →
      (NestedInv s ∧ Mirror s.atomic) ∧ s.Unreaped ∧ s.terminated = false := by
    intro s hi
    obtain ⟨hshell, hframes, htaken, -, hterm⟩ := id hi
    refine ⟨⟨init_nestedInv hi, ?_⟩, fun p hp => (held_nil hframes hp).elim, hterm⟩
    rw [atomic_of_none htaken]
    exact init_mirror hshell
  have hstep : ∀ s e t, (NestedInv s ∧ Mirror s.atomic) ∧ s.Unreaped ∧ s.terminated = false →
      s.Undisturbed e → nestedShell.step s e = some t →
      (NestedInv t ∧ Mirror t.atomic) ∧ t.Unreaped ∧ t.terminated = false := by
    rintro s e t ⟨⟨hinv, hmirror⟩, hunreaped, hterm⟩ hok hs
    have hmoves := nested_moves hs
    obtain ⟨hkept, hsame⟩ :=
      nestedMoves_unreaped hinv hunreaped (hok.reaches hinv hmirror hs) hmoves
    exact ⟨⟨nestedMoves_inv hinv hmoves, atomic_mirror hinv hmirror hok hs⟩, hkept,
      hsame.trans hterm⟩
  exact (nestedShell.reachableWhere_invariant hinit hstep h).2.2

end Undisturbed

end CompOrg.Shell
