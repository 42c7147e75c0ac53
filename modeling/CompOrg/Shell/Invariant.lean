import CompOrg.Shell.Model

/-! # What holds between any two statements

The invariant ties the entries of the table to the statement that the main thread
has reached: which child it is about to add, which slot it is filling, which job it
waits for. The handler only clears entries and stops jobs, and every part of the
invariant survives that; so each statement needs one argument, for all placements of
the handler.
-/

namespace CompOrg.Shell

/-! ## The invariant -/

/-- What the main thread knows about the table at its next statement. -/
def Pc.Sound (t : JobTable) (forked : List Int) : Pc → Prop
  | .addCheck job | .addScan job _ => job.pid ∈ forked ∧ ∀ i, (t.jobs i).pid ≠ job.pid
  | .addPid job k => job.pid ∈ forked ∧ (∀ i, (t.jobs i).pid ≠ job.pid) ∧ (t.jobs k).pid = 0
  | .addState job k => ((t.jobs k).pid = job.pid ∨ (t.jobs k).pid = 0) ∧
      ∀ i, (t.jobs i).pid ≠ 0 → (t.jobs i).pid = job.pid → i = k
  | .waitState k pid | .waitPid k pid => 0 < pid ∧ ∀ i, (t.jobs i).pid = pid → i = k
  | _ => True

/-- The pid of the job that may be in the foreground at a statement. -/
def Pc.MayBeFg (t : JobTable) : Pc → Int → Prop
  | .addState job _, pid => pid = job.pid
  | .addJid job _, pid | .addWrap job _, pid | .addCopy job _, pid | .evalUnblock job, pid
  | .evalWait job, pid => pid = job.pid ∧ job.bg = false
  | .waitLookup p, pid | .waitState _ p, pid | .waitPid _ p, pid => pid = p
  | .bgfgWait k, pid => pid = (t.jobs k).pid
  | _, _ => False

/-- At every statement there is at most one such pid. -/
theorem Pc.MayBeFg.unique {t : JobTable} {pc : Pc} {p q : Int} (hp : pc.MayBeFg t p)
    (hq : pc.MayBeFg t q) : p = q := by
  cases pc <;> simp_all [Pc.MayBeFg]

structure Inv (s : State) : Prop where
  positive : ∀ p ∈ s.forked, 0 < p
  distinct : s.table.Distinct
  listed : ∀ i, (s.table.jobs i).pid ≠ 0 → (s.table.jobs i).pid ∈ s.forked
  sound : s.pc.Sound s.table s.forked
  fg : ∀ i, (s.table.jobs i).pid ≠ 0 → (s.table.jobs i).state = .fg →
    s.pc.MayBeFg s.table (s.table.jobs i).pid

variable {s s' : State} {t t' : JobTable} {pid : Int} {mask : List Signal}

theorem Inv.pid_pos (h : Inv s) {i : Slot} (hi : (s.table.jobs i).pid ≠ 0) :
    0 < (s.table.jobs i).pid := h.positive _ (h.listed i hi)

/-! ## Statements that leave pids and states alone -/

/-- Two tables with the same pids and states. -/
def SameJobs (t t' : JobTable) : Prop :=
  ∀ i, (t'.jobs i).pid = (t.jobs i).pid ∧ (t'.jobs i).state = (t.jobs i).state

theorem SameJobs.refl (t : JobTable) : SameJobs t t := fun _ => ⟨rfl, rfl⟩

theorem Inv.goto (h : Inv s) (htable : SameJobs s.table s'.table) (hforked : s'.forked = s.forked)
    (hsound : s'.pc.Sound s'.table s.forked)
    (hfg : ∀ pid, s.pc.MayBeFg s.table pid →
      (∃ i, (s.table.jobs i).pid = pid ∧ pid ≠ 0 ∧ (s.table.jobs i).state = .fg) →
      s'.pc.MayBeFg s'.table pid) : Inv s' where
  positive := hforked ▸ h.positive
  distinct i j hi heq := by
    rw [(htable i).1] at hi heq
    rw [(htable j).1] at heq
    exact h.distinct i j hi heq
  listed i hi := by
    rw [(htable i).1] at hi ⊢
    exact hforked ▸ h.listed i hi
  sound := hforked ▸ hsound
  fg i hi hstate := by
    rw [(htable i).1] at hi ⊢
    rw [(htable i).2] at hstate
    exact hfg _ (h.fg i hi hstate) ⟨i, rfl, hi, hstate⟩

/-! ## The handler -/

/-- What the handler does to a table: entries are cleared, no job comes to the
foreground. -/
structure Shrinks (t t' : JobTable) : Prop where
  pid : ∀ i, (t'.jobs i).pid = (t.jobs i).pid ∨ (t'.jobs i).pid = 0
  state : ∀ i, (t'.jobs i).state = .fg → (t.jobs i).state = .fg

theorem shrinks_stopped (t : JobTable) (i : Slot) : Shrinks t (t.setState i .st) where
  pid j := Or.inl (t.setState_pid i j .st)
  state j h := by
    rw [t.setState_state] at h
    split at h
    · simp at h
    · exact h

theorem shrinks_deletejob (hd : t.Distinct) (hpid : 0 < pid) : Shrinks t (t.deletejob pid).1 where
  pid i := by
    rw [JobTable.deletejob_jobs hd hpid]
    split
    · exact Or.inr rfl
    · exact Or.inl rfl
  state i h := by
    rw [JobTable.deletejob_jobs hd hpid] at h
    split at h
    · simp [clearjob] at h
    · exact h

theorem Shrinks.pid_eq (h : Shrinks t t') {i : Slot} (hi : (t'.jobs i).pid ≠ 0) :
    (t'.jobs i).pid = (t.jobs i).pid := (h.pid i).resolve_right hi

theorem Shrinks.sound (h : Shrinks t t') {pc : Pc} {forked : List Int}
    (hpos : ∀ p ∈ forked, 0 < p) (hsound : pc.Sound t forked) : pc.Sound t' forked := by
  have hnew : ∀ p ∈ forked, (∀ i, (t.jobs i).pid ≠ p) → ∀ i, (t'.jobs i).pid ≠ p := by
    intro p hp hne i heq
    have := hpos p hp
    exact hne i ((h.pid_eq (by omega)).symm.trans heq)
  have hkept : ∀ p, 0 < p → ∀ i, (t'.jobs i).pid = p → (t.jobs i).pid = p := by
    intro p hp i heq
    exact (h.pid_eq (by omega)).symm.trans heq
  cases pc with
  | addCheck job => exact ⟨hsound.1, hnew _ hsound.1 hsound.2⟩
  | addScan job k => exact ⟨hsound.1, hnew _ hsound.1 hsound.2⟩
  | addPid job k =>
      refine ⟨hsound.1, hnew _ hsound.1 hsound.2.1, ?_⟩
      rcases h.pid k with hk | hk
      · exact hk.trans hsound.2.2
      · exact hk
  | addState job k =>
      refine ⟨?_, fun i hi heq => ?_⟩
      · rcases h.pid k with hk | hk
        · exact hsound.1.imp hk.trans hk.trans
        · exact Or.inr hk
      · exact hsound.2 i (h.pid_eq hi ▸ hi) ((h.pid_eq hi).symm.trans heq)
  | waitState k pid => exact ⟨hsound.1, fun i hi => hsound.2 i (hkept pid hsound.1 i hi)⟩
  | waitPid k pid => exact ⟨hsound.1, fun i hi => hsound.2 i (hkept pid hsound.1 i hi)⟩
  | _ => trivial

theorem Inv.shrink (h : Inv s) (ht : Shrinks s.table s'.table) (hforked : s'.forked = s.forked)
    (hpc : s'.pc = s.pc) : Inv s' where
  positive := hforked ▸ h.positive
  distinct i j hi heq := by
    have hj : (s'.table.jobs j).pid ≠ 0 := heq ▸ hi
    rw [ht.pid_eq hi, ht.pid_eq hj] at heq
    exact h.distinct i j (ht.pid_eq hi ▸ hi) heq
  listed i hi := by
    rw [hforked, ht.pid_eq hi]
    exact h.listed i (ht.pid_eq hi ▸ hi)
  sound := hpc ▸ hforked ▸ ht.sound h.positive h.sound
  fg i hi hstate := by
    have hi' : (s.table.jobs i).pid ≠ 0 := ht.pid_eq hi ▸ hi
    have hmay := h.fg i hi' (ht.state i hstate)
    rw [ht.pid_eq hi, hpc]
    cases hc : s.pc with
    | bgfgWait k =>
        -- the slot itself is read, and it still holds the only job in the foreground
        rw [hc] at hmay
        obtain rfl := h.distinct i k hi' hmay
        exact (ht.pid_eq hi).symm
    | _ =>
        rw [hc] at hmay
        exact hmay

/-! ## The main thread -/

/-- A slot gets a pid that no entry has. -/
theorem distinct_setPid (hd : t.Distinct) {k : Slot}
    (hnew : ∀ i, (t.jobs i).pid ≠ pid) : (t.setPid k pid).Distinct := by
  intro i j hi heq
  rw [t.setPid_pid] at hi heq
  rw [t.setPid_pid] at heq
  split at heq
  next hik =>
    split at heq
    next hjk => rw [hik, hjk]
    next => exact (hnew j heq.symm).elim
  next hik =>
    rw [if_neg hik] at hi
    split at heq
    next => exact (hnew i heq).elim
    next => exact hd i j hi heq

theorem sameJobs_takeJid (t : JobTable) (i : Slot) : SameJobs t (t.takeJid i) :=
  fun j => ⟨t.takeJid_pid i j, t.takeJid_state i j⟩

theorem sameJobs_wrapJid (t : JobTable) : SameJobs t t.wrapJid := fun j => by simp

theorem sameJobs_copyCmdline (t : JobTable) (i : Slot) (cmdline : List UInt8) :
    SameJobs t (t.copyCmdline i cmdline) :=
  fun j => ⟨t.copyCmdline_pid i j cmdline, t.copyCmdline_state i j cmdline⟩

theorem addPid_inv {job : NewJob} {k : Slot} (h : Inv s) (hpc : s.pc = .addPid job k) :
    Inv { s with table := s.table.setPid k job.pid, pc := .addState job k } := by
  have hsound := h.sound
  rw [hpc] at hsound
  obtain ⟨hmem, hnew, hk⟩ := hsound
  refine ⟨h.positive, distinct_setPid h.distinct hnew, fun i => ?_, ⟨Or.inl ?_, fun i => ?_⟩,
    fun i => ?_⟩
  · rw [s.table.setPid_pid]
    split
    · exact fun _ => hmem
    · exact h.listed i
  · rw [s.table.setPid_pid, if_pos rfl]
  · rw [s.table.setPid_pid]
    split
    next hik => exact fun _ _ => hik
    next => exact fun _ heq => (hnew i heq).elim
  · rw [s.table.setPid_pid, s.table.setPid_state]
    split
    · exact fun _ _ => rfl
    · -- no job was in the foreground before
      intro hi hstate
      have hmay := h.fg i hi hstate
      rw [hpc] at hmay
      exact hmay.elim

theorem addState_inv {job : NewJob} {k : Slot} (h : Inv s) (hpc : s.pc = .addState job k) :
    Inv { s with table := s.table.setState k job.state, pc := .addJid job k } := by
  have hsound := h.sound
  rw [hpc] at hsound
  refine ⟨h.positive, fun i j => ?_, fun i => ?_, trivial, fun i => ?_⟩
  · rw [s.table.setState_pid, s.table.setState_pid]
    exact h.distinct i j
  · rw [s.table.setState_pid]
    exact h.listed i
  · rw [s.table.setState_pid, s.table.setState_state]
    split
    next hik =>
      -- the slot itself: it still holds the new job, and `FG` was stored for it
      intro hi hstate
      subst hik
      refine ⟨hsound.1.resolve_right hi, ?_⟩
      cases hbg : job.bg with
      | false => rfl
      | true => simp [NewJob.state, hbg] at hstate
    next hik =>
      -- any other slot: its job would be the new one
      intro hi hstate
      have hmay : (s.table.jobs i).pid = job.pid := by
        have := h.fg i hi hstate
        rwa [hpc] at this
      exact (hik (hsound.2 i hi hmay)).elim

theorem bgfgSet_inv {fg : Bool} {k : Slot} (h : Inv s) (hpc : s.pc = .bgfgSet fg k) :
    Inv { s with
      table := s.table.setState k (if fg then .fg else .bg)
      pc := if fg then .bgfgWait k else .bgfgPrint k } := by
  refine ⟨h.positive, fun i j => ?_, fun i => ?_, ?_, fun i => ?_⟩
  · rw [s.table.setState_pid, s.table.setState_pid]
    exact h.distinct i j
  · rw [s.table.setState_pid]
    exact h.listed i
  · cases fg <;> trivial
  · rw [s.table.setState_pid, s.table.setState_state]
    split
    next hik =>
      intro hi hstate
      subst hik
      cases fg with
      | false => simp at hstate
      | true => exact (s.table.setState_pid i i _).symm
    next =>
      intro hi hstate
      have hmay := h.fg i hi hstate
      rw [hpc] at hmay
      exact hmay.elim

/-- `job = getjobpid(jobs, pid)` at the start of `waitfg`. -/
theorem waitLookup_inv (h : Inv s) (hpc : s.pc = .waitLookup pid) :
    Inv { s with pc := match s.table.getjobpid pid with
      | none => .prompt
      | some i => .waitState i pid } := by
  cases hget : s.table.getjobpid pid with
  | none =>
      refine h.goto (SameJobs.refl _) rfl trivial fun p hmay => ?_
      rintro ⟨i, hi, hp, -⟩
      rw [hpc] at hmay
      have hpos := h.pid_pos (hi ▸ hp : (s.table.jobs i).pid ≠ 0)
      have hmay : p = pid := hmay
      exact (JobTable.getjobpid_none hget (by omega) i (hi.trans hmay)).elim
  | some i =>
      obtain ⟨hi, hpos⟩ := JobTable.getjobpid_some hget
      have hne : (s.table.jobs i).pid ≠ 0 := by omega
      refine h.goto (SameJobs.refl _) rfl ⟨hpos, fun j hj => ?_⟩ fun p hmay _ => ?_
      · exact (h.distinct i j hne (hi.trans hj.symm)).symm
      · rw [hpc] at hmay
        exact hmay

theorem waitState_inv {k : Slot} (h : Inv s) (hpc : s.pc = .waitState k pid) :
    Inv { s with
      pc := if (s.table.jobs k).state = .fg then .waitPid k pid else .prompt } := by
  have hsound := h.sound
  rw [hpc] at hsound
  split
  next =>
    refine h.goto (SameJobs.refl _) rfl hsound fun p hmay _ => ?_
    rw [hpc] at hmay
    exact hmay
  next hstate =>
    -- a job in the foreground has the awaited pid, so it is the one in this slot
    refine h.goto (SameJobs.refl _) rfl trivial fun p hmay => ?_
    rintro ⟨i, hi, -, hfg⟩
    rw [hpc] at hmay
    have hmay : p = pid := hmay
    exact hstate (hsound.2 i (hi.trans hmay) ▸ hfg)

theorem waitPid_inv {k : Slot} (h : Inv s) (hpc : s.pc = .waitPid k pid) :
    Inv { s with
      pc := if (s.table.jobs k).pid = pid then .waitState k pid else .prompt } := by
  have hsound := h.sound
  rw [hpc] at hsound
  split
  next =>
    refine h.goto (SameJobs.refl _) rfl hsound fun p hmay _ => ?_
    rw [hpc] at hmay
    exact hmay
  next hne =>
    refine h.goto (SameJobs.refl _) rfl trivial fun p hmay => ?_
    rintro ⟨i, hi, -, -⟩
    rw [hpc] at hmay
    have hmay : p = pid := hmay
    exact hne (hsound.2 i (hi.trans hmay) ▸ hi.trans hmay)

theorem addScan_inv {job : NewJob} {k : Slot} (h : Inv s) (hpc : s.pc = .addScan job k) :
    Inv { s with pc :=
      if (s.table.jobs k).pid = 0 then .addPid job k
      else if h : k.val + 1 < MAXJOBS then .addScan job ⟨k.val + 1, h⟩ else .halted } := by
  have hsound := h.sound
  have hfg : ∀ p, ¬ s.pc.MayBeFg s.table p := fun p => by simp [hpc, Pc.MayBeFg]
  rw [hpc] at hsound
  split
  next hk =>
    exact h.goto (SameJobs.refl _) rfl ⟨hsound.1, hsound.2, hk⟩ fun p hmay => (hfg p hmay).elim
  next =>
    split
    · exact h.goto (SameJobs.refl _) rfl hsound fun p hmay => (hfg p hmay).elim
    · exact h.goto (SameJobs.refl _) rfl trivial fun p hmay => (hfg p hmay).elim

/-- Every statement of the main thread keeps the invariant. -/
theorem mainStep_inv (h : Inv s) (hs : s.mainStep mask = some s') : Inv s' := by
  have hsound := h.sound
  unfold State.mainStep at hs
  cases hpc : s.pc with
  | evalBlock bg cmdline | bgfgPrint i =>
      rw [hpc] at hs
      cases hs
      exact h.goto (SameJobs.refl _) rfl trivial fun _ hmay => by rw [hpc] at hmay; exact hmay.elim
  | addCheck job =>
      rw [hpc] at hs hsound
      cases hs
      refine h.goto (SameJobs.refl _) rfl ?_ fun _ hmay => by rw [hpc] at hmay; exact hmay.elim
      dsimp only
      split
      · trivial
      · exact hsound
  | addScan job i =>
      rw [hpc] at hs
      cases hs
      exact addScan_inv h hpc
  | addPid job i =>
      rw [hpc] at hs
      cases hs
      exact addPid_inv h hpc
  | addState job i =>
      rw [hpc] at hs
      cases hs
      exact addState_inv h hpc
  | addJid job i =>
      rw [hpc] at hs
      cases hs
      exact h.goto (sameJobs_takeJid _ i) rfl trivial fun _ hmay _ => by rwa [hpc] at hmay
  | addWrap job i =>
      rw [hpc] at hs
      cases hs
      exact h.goto (sameJobs_wrapJid _) rfl trivial fun _ hmay _ => by rwa [hpc] at hmay
  | addCopy job i =>
      rw [hpc] at hs
      cases hs
      exact h.goto (sameJobs_copyCmdline _ i _) rfl trivial fun _ hmay _ => by rwa [hpc] at hmay
  | evalUnblock job | bgfgWait i =>
      rw [hpc] at hs
      cases hs
      exact h.goto (SameJobs.refl _) rfl trivial fun _ hmay _ => by rwa [hpc] at hmay
  | evalWait job =>
      rw [hpc] at hs
      cases hs
      refine h.goto (SameJobs.refl _) rfl ?_ fun p hmay _ => ?_
      · dsimp only
        split <;> trivial
      · rw [hpc] at hmay
        obtain ⟨hp, hbg⟩ : p = job.pid ∧ job.bg = false := hmay
        simp only [hbg]
        exact hp
  | waitLookup pid =>
      rw [hpc] at hs
      cases hs
      exact waitLookup_inv h hpc
  | waitState i pid =>
      rw [hpc] at hs
      cases hs
      exact waitState_inv h hpc
  | waitPid i pid =>
      rw [hpc] at hs
      cases hs
      exact waitPid_inv h hpc
  | bgfgSet fg i =>
      rw [hpc] at hs
      cases hs
      exact bgfgSet_inv h hpc
  | prompt | evalFork bg cmdline | bgfgKill fg i | halted =>
      rw [hpc] at hs
      cases hs

/-! ## System calls, lines, children -/

theorem line_inv {pc : Pc} (h : Inv s) (hpc : s.pc = .prompt)
    (hsound : pc.Sound s.table s.forked) : Inv { s with pc := pc } :=
  h.goto (SameJobs.refl _) rfl hsound fun _ hmay => by rw [hpc] at hmay; exact hmay.elim

theorem fork_inv {bg : Bool} {cmdline : List UInt8} (h : Inv s)
    (hpc : s.pc = .evalFork bg cmdline) (hpid : 0 < pid) (hnew : pid ∉ s.forked) :
    Inv { s with
      forked := pid :: s.forked
      status := Function.update s.status pid .running
      pc := .addCheck ⟨pid, bg, cmdline⟩ } := by
  have hne : ∀ i, (s.table.jobs i).pid ≠ pid := by
    intro i heq
    have := h.listed i (by omega)
    exact hnew (heq ▸ this)
  refine ⟨fun p hp => ?_, h.distinct, fun i hi => ?_, ⟨List.mem_cons_self, hne⟩,
    fun i hi hstate => ?_⟩
  · rcases List.mem_cons.mp hp with rfl | hp
    · exact hpid
    · exact h.positive p hp
  · exact List.mem_cons_of_mem _ (h.listed i hi)
  · have hmay := h.fg i hi hstate
    rw [hpc] at hmay
    exact hmay

/-- Whatever happens next, the invariant holds again. -/
theorem moves_inv {e : Event} (h : Inv s) (hm : Moves mask s e s') : Inv s' := by
  cases hm with
  | @line argv bg cmdline unset hpc =>
      refine line_inv h hpc ?_
      rcases evalLine_cases s argv bg cmdline unset with hl | hl | hl | ⟨_, _, _, _, hl⟩ <;>
        rw [hl] <;> trivial
  | eof hpc => exact line_inv h hpc trivial
  | main hin hs => exact mainStep_inv h hs
  | forkFail hpc =>
      exact h.goto (SameJobs.refl _) rfl trivial fun _ hmay => by rw [hpc] at hmay; exact hmay.elim
  | fork hin hpc hpid hnew => exact fork_inv h hpc hpid hnew
  | kill hpc =>
      refine h.goto (SameJobs.refl _) rfl ?_ fun _ hmay => by rw [hpc] at hmay; exact hmay.elim
      dsimp only
      split <;> trivial
  | sigchld | sigret | drop | child =>
      exact h.goto (SameJobs.refl _) rfl h.sound fun _ hmay _ => hmay
  | stop => exact h.shrink (shrinks_stopped s.table _) rfl rfl
  | reap hin hmem =>
      exact h.shrink (shrinks_deletejob h.distinct (h.positive _ hmem)) rfl rfl

theorem init_inv (h : (shellMasking mask).init s) : Inv s := by
  obtain ⟨stale, -, htable, hpc, -, -, hforked⟩ := h
  have hempty : ∀ i, (s.table.jobs i).pid = 0 := fun i => by rw [htable]; rfl
  exact ⟨by simp [hforked], fun i _ hi => (hi (hempty i)).elim, fun i hi => (hi (hempty i)).elim,
    hpc ▸ trivial, fun i hi => (hi (hempty i)).elim⟩

theorem reachable_inv (h : (shellMasking mask).Reachable s) : Inv s :=
  (shellMasking mask).reachable_invariant (fun _ => init_inv)
    (fun _ _ _ hi hs => moves_inv hi (step_moves hs)) h

end CompOrg.Shell
