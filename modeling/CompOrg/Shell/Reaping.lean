import CompOrg.Shell.Model

/-! # One run of `sigchld_handler`

The loop over everything that `waitpid` has to report, as a function of the job
table and the reports. What it leaves is described slot by slot: the first entry
with a reported pid is changed, every other entry stays. The same iterations taken
one by one are the `wait` steps of the interleaved shell.
-/

namespace CompOrg.Shell

/-- What `WIFSTOPPED`, `WIFSIGNALED` and `WIFEXITED` tell apart. -/
inductive WaitStatus
  | stopped (sig : Int)
  | signaled (sig : Int)
  | exited
  deriving DecidableEq

/-- An answer of `waitpid` that keeps the loop going. -/
structure Report where
  pid : Int
  status : WaitStatus
  pos : 0 < pid
  deriving DecidableEq

namespace Report

def isStop (r : Report) : Bool :=
  match r.status with
  | .stopped _ => true
  | .signaled _ | .exited => false

/-- The new contents of the entry that a report is about. -/
def change (r : Report) (job : Job) : Job :=
  if r.isStop then { job with state := .st } else clearjob job

end Report

theorem Report.change_pid (r : Report) (job : Job) :
    (r.change job).pid = job.pid ∨ (r.change job).pid = 0 := by
  unfold Report.change
  split
  · exact Or.inl rfl
  · exact Or.inr rfl

/-- The lines that the handler prints. -/
inductive Line
  | noSuchProcess (pid : Int)
  | stopped (jid pid sig : Int)
  | terminated (jid pid sig : Int)
  deriving DecidableEq

/-- The table, the reports that were not consumed, and the output. -/
structure Handled where
  table : JobTable
  pending : List Report
  output : List Line

def Handled.print (h : Handled) (line : Line) : Handled := { h with output := line :: h.output }

/-- A stopped pid that is not in the table makes the handler return at once. -/
def sigchldHandler (t : JobTable) : List Report → Handled
  | [] => ⟨t, [], []⟩
  | r :: rest =>
      match r.status with
      | .stopped sig =>
          match t.getjobpid r.pid with
          | none => ⟨t, rest, [.noSuchProcess r.pid]⟩
          | some i =>
              let t := t.setState i .st
              (sigchldHandler t rest).print (.stopped (t.pid2jid r.pid) r.pid sig)
      | .signaled sig =>
          let jid := t.pid2jid r.pid
          (sigchldHandler (t.deletejob r.pid).1 rest).print (.terminated jid r.pid sig)
      | .exited => sigchldHandler (t.deletejob r.pid).1 rest

namespace JobTable

/-- The table after one iteration. -/
def handle (t : JobTable) (r : Report) : JobTable :=
  if r.isStop then
    match t.getjobpid r.pid with
    | none => t
    | some i => t.setState i .st
  else (t.deletejob r.pid).1

def Lists (t : JobTable) (pid : Int) : Prop := ∃ i, (t.jobs i).pid = pid

/-- No earlier entry has the same pid. -/
def First (t : JobTable) (k : Slot) : Prop := ∀ i, i < k → (t.jobs i).pid ≠ (t.jobs k).pid

instance (t : JobTable) (k : Slot) : Decidable (t.First k) :=
  inferInstanceAs (Decidable (∀ i, i < k → (t.jobs i).pid ≠ (t.jobs k).pid))

instance (t : JobTable) (pid : Int) : Decidable (t.Lists pid) :=
  inferInstanceAs (Decidable (∃ i, (t.jobs i).pid = pid))

variable {t : JobTable} {r : Report} {i k : Slot} {pid : Int}

theorem exists_earlier (h : ¬ t.First k) : ∃ i, i < k ∧ (t.jobs i).pid = (t.jobs k).pid := by
  unfold First at h
  push Not at h
  exact h

theorem Distinct.first (hd : t.Distinct) (hk : (t.jobs k).pid ≠ 0) : t.First k := by
  intro i hlt heq
  have hik := hd k i hk heq.symm
  exact absurd hlt (hik ▸ lt_irrefl k)

theorem firstJob_pid_iff :
    t.firstJob (fun job => job.pid == pid) = some k ↔ (t.jobs k).pid = pid ∧ t.First k := by
  constructor
  · intro h
    have hk : (t.jobs k).pid = pid := by simpa using firstJob_some h
    refine ⟨hk, fun i hlt heq => ?_⟩
    have := firstJob_lt h hlt
    simp [heq, hk] at this
  · rintro ⟨hk, hfirst⟩
    refine firstJob_of_first (by simp [hk]) fun i hlt => ?_
    have := hfirst i hlt
    simpa [hk] using this

theorem getjobpid_eq (hpid : 0 < pid) :
    t.getjobpid pid = t.firstJob fun job => job.pid == pid := if_neg (by omega)

theorem getjobpid_eq_none_iff (hpid : 0 < pid) : t.getjobpid pid = none ↔ ¬ t.Lists pid := by
  constructor
  · rintro h ⟨i, hi⟩
    exact getjobpid_none h hpid i hi
  · intro h
    rw [getjobpid_eq hpid]
    apply firstJob_of_none
    intro i
    by_contra hi
    exact h ⟨i, by simpa using hi⟩

theorem first_eq (h : t.firstJob (fun job => job.pid == pid) = some i) :
    (t.jobs k).pid = pid ∧ t.First k ↔ k = i := by
  rw [← firstJob_pid_iff, h, Option.some_inj, eq_comm]

theorem not_first (h : t.firstJob (fun job => job.pid == pid) = none) :
    ¬ ((t.jobs k).pid = pid ∧ t.First k) := by
  rw [← firstJob_pid_iff, h]
  simp

theorem deletejob_first (hpid : 0 < pid) (k : Slot) :
    (t.deletejob pid).1.jobs k =
      if (t.jobs k).pid = pid ∧ t.First k then clearjob (t.jobs k) else t.jobs k := by
  rw [deletejob, if_neg (by omega)]
  cases hfind : t.firstJob fun job => job.pid == pid with
  | none => rw [if_neg (not_first hfind)]
  | some i =>
      simp only [first_eq hfind]
      exact modify_jobs t i clearjob k

/-- One iteration changes the first entry with the reported pid. -/
theorem handle_jobs (t : JobTable) (r : Report) (k : Slot) :
    (t.handle r).jobs k =
      if (t.jobs k).pid = r.pid ∧ t.First k then r.change (t.jobs k) else t.jobs k := by
  unfold handle Report.change
  cases r.isStop with
  | false => exact deletejob_first r.pos k
  | true =>
      simp only [if_true]
      rw [getjobpid_eq r.pos]
      cases hfind : t.firstJob fun job => job.pid == r.pid with
      | none => rw [if_neg (not_first hfind)]
      | some i =>
          simp only [first_eq hfind]
          exact modify_jobs t i (fun job => { job with state := .st }) k

theorem handle_pid_iff (hne : pid ≠ r.pid) (hpid : pid ≠ 0) :
    ((t.handle r).jobs k).pid = pid ↔ (t.jobs k).pid = pid := by
  rw [handle_jobs]
  by_cases hk : (t.jobs k).pid = r.pid ∧ t.First k
  · rw [if_pos hk, hk.1]
    apply iff_of_false
    · unfold Report.change
      split
      · exact fun h => hne (h.symm.trans hk.1)
      · exact fun h => hpid h.symm
    · exact fun h => hne h.symm
  · rw [if_neg hk]

theorem handle_lists_iff (hne : pid ≠ r.pid) (hpid : pid ≠ 0) :
    (t.handle r).Lists pid ↔ t.Lists pid := by
  unfold Lists
  simp only [handle_pid_iff hne hpid]

theorem handle_first_iff (hne : (t.jobs k).pid ≠ r.pid) (hpid : (t.jobs k).pid ≠ 0) :
    (t.handle r).First k ↔ t.First k := by
  have hk : ((t.handle r).jobs k).pid = (t.jobs k).pid := (handle_pid_iff hne hpid).mpr rfl
  unfold First
  simp only [hk, ne_eq, handle_pid_iff hne hpid]

end JobTable

/-! ## The loop -/

section Loop

variable {t : JobTable} {r q : Report} {rest pending : List Report}

theorem pid_ne_of_nodup (hnodup : ((r :: rest).map Report.pid).Nodup) (hq : q ∈ rest) :
    q.pid ≠ r.pid := by
  rw [List.map_cons, List.nodup_cons] at hnodup
  intro heq
  exact hnodup.1 (heq ▸ List.mem_map_of_mem hq)

theorem handle_lists_later (hnodup : ((r :: rest).map Report.pid).Nodup) (hq : q ∈ rest) :
    (t.handle r).Lists q.pid ↔ t.Lists q.pid := by
  have hpos := q.pos
  exact JobTable.handle_lists_iff (pid_ne_of_nodup hnodup hq) (by omega)

/-- A stopped pid that is not listed ends the loop. -/
theorem sigchldHandler_unlisted (hstop : r.isStop = true) (hun : ¬ t.Lists r.pid) :
    (sigchldHandler t (r :: rest)).table = t ∧ (sigchldHandler t (r :: rest)).pending = rest := by
  have hnone := (JobTable.getjobpid_eq_none_iff r.pos).mpr hun
  unfold Report.isStop at hstop
  unfold sigchldHandler
  split
  next => simp [hnone]
  next h => simp [h] at hstop
  next h => simp [h] at hstop

theorem sigchldHandler_cons (h : r.isStop = true → t.Lists r.pid) :
    (sigchldHandler t (r :: rest)).table = (sigchldHandler (t.handle r) rest).table ∧
      (sigchldHandler t (r :: rest)).pending = (sigchldHandler (t.handle r) rest).pending := by
  unfold Report.isStop at h
  unfold JobTable.handle Report.isStop
  rw [sigchldHandler]
  split
  next hs =>
    simp only [hs, if_true, forall_const] at h ⊢
    cases hget : t.getjobpid r.pid with
    | none => exact absurd h ((JobTable.getjobpid_eq_none_iff r.pos).mp hget)
    | some i => exact ⟨rfl, rfl⟩
  next => simp [Handled.print]
  next => simp

/-- Everything is consumed unless a stopped pid that is not listed comes before the
end. -/
theorem consumed_iff (hnodup : (pending.map Report.pid).Nodup) :
    (sigchldHandler t pending).pending = [] ↔
      ∀ r ∈ pending.dropLast, r.isStop = true → t.Lists r.pid := by
  induction pending generalizing t with
  | nil => simp [sigchldHandler]
  | cons r rest ih =>
      cases rest with
      | nil =>
          apply iff_of_true
          · by_cases hr : r.isStop = true → t.Lists r.pid
            · rw [(sigchldHandler_cons hr).2]
              rfl
            · rw [Classical.not_imp] at hr
              exact (sigchldHandler_unlisted hr.1 hr.2).2
          · simp
      | cons q qs =>
          rw [List.dropLast_cons_cons, List.forall_mem_cons]
          by_cases hr : r.isStop = true → t.Lists r.pid
          · rw [(sigchldHandler_cons hr).2, ih (List.nodup_cons.mp hnodup).2]
            have hlists : ∀ p ∈ (q :: qs).dropLast,
                ((t.handle r).Lists p.pid ↔ t.Lists p.pid) := fun p hp =>
              handle_lists_later hnodup (List.dropLast_subset _ hp)
            constructor
            · exact fun h => ⟨hr, fun p hp hs => (hlists p hp).mp (h p hp hs)⟩
            · exact fun h p hp hs => (hlists p hp).mpr (h.2 p hp hs)
          · apply iff_of_false
            · rw [Classical.not_imp] at hr
              rw [(sigchldHandler_unlisted hr.1 hr.2).2]
              exact List.cons_ne_nil q qs
            · exact fun h => hr h.1

/-- What the reports do to one entry. -/
def JobTable.effect (t : JobTable) (pending : List Report) (k : Slot) : Job :=
  match pending.find? fun r => r.pid == (t.jobs k).pid with
  | some r => if t.First k then r.change (t.jobs k) else t.jobs k
  | none => t.jobs k

theorem effect_of_mem (hnodup : (pending.map Report.pid).Nodup) (hr : r ∈ pending) {k : Slot}
    (hk : (t.jobs k).pid = r.pid) :
    t.effect pending k = if t.First k then r.change (t.jobs k) else t.jobs k := by
  have hfind : pending.find? (fun r => r.pid == (t.jobs k).pid) = some r := by
    cases hq : pending.find? fun r => r.pid == (t.jobs k).pid with
    | none =>
        have hnone := List.find?_eq_none.mp hq r hr
        simp [hk] at hnone
    | some q =>
        have hpid : q.pid = (t.jobs k).pid := by simpa using List.find?_some hq
        have hmem := List.mem_of_find?_eq_some hq
        rw [List.inj_on_of_nodup_map hnodup hmem hr (hpid.trans hk)]
  rw [JobTable.effect, hfind]

theorem effect_of_unreported {k : Slot} (h : ∀ r ∈ pending, r.pid ≠ (t.jobs k).pid) :
    t.effect pending k = t.jobs k := by
  have hfind : pending.find? (fun r => r.pid == (t.jobs k).pid) = none := by
    simpa using h
  rw [JobTable.effect, hfind]

theorem effect_pid (t : JobTable) (pending : List Report) (k : Slot) :
    (t.effect pending k).pid = (t.jobs k).pid ∨ (t.effect pending k).pid = 0 := by
  unfold JobTable.effect
  split
  next r _ =>
    split
    · exact r.change_pid _
    · exact Or.inl rfl
  next => exact Or.inl rfl

/-- The effect of a list of reports is that of the first and then of the others. -/
theorem effect_handle (hnodup : ((r :: rest).map Report.pid).Nodup) (k : Slot) :
    (t.handle r).effect rest k = t.effect (r :: rest) k := by
  have hnodup' := (List.nodup_cons.mp hnodup).2
  by_cases hk : (t.jobs k).pid = r.pid
  · -- changed now or not the first one; no later report is about this entry
    have hpid : ((t.handle r).jobs k).pid = r.pid ∨ ((t.handle r).jobs k).pid = 0 := by
      rw [JobTable.handle_jobs, ← hk]
      split
      · exact r.change_pid _
      · exact Or.inl rfl
    have hlater : ∀ q ∈ rest, q.pid ≠ ((t.handle r).jobs k).pid := by
      intro q hq heq
      have := q.pos
      rcases hpid with h | h
      · exact pid_ne_of_nodup hnodup hq (heq.trans h)
      · omega
    rw [effect_of_unreported hlater, effect_of_mem hnodup List.mem_cons_self hk,
      JobTable.handle_jobs]
    simp only [hk, true_and]
  · have hsame : (t.handle r).jobs k = t.jobs k := by
      rw [JobTable.handle_jobs, if_neg fun h => hk h.1]
    by_cases hlater : ∃ q ∈ rest, (t.jobs k).pid = q.pid
    · obtain ⟨q, hq, hkq⟩ := hlater
      have hpos := q.pos
      have hkq' : ((t.handle r).jobs k).pid = q.pid := by rw [hsame, hkq]
      rw [effect_of_mem hnodup' hq hkq', effect_of_mem hnodup (List.mem_cons_of_mem r hq) hkq,
        hsame]
      simp only [JobTable.handle_first_iff hk (by omega)]
    · have hrest : ∀ q ∈ rest, q.pid ≠ (t.jobs k).pid := fun q hq heq =>
        hlater ⟨q, hq, heq.symm⟩
      have hall : ∀ q ∈ r :: rest, q.pid ≠ (t.jobs k).pid :=
        List.forall_mem_cons.mpr ⟨fun heq => hk heq.symm, hrest⟩
      rw [effect_of_unreported hall, effect_of_unreported (hsame.symm ▸ hrest), hsame]

/-- A run that consumes every report changes the table slot by slot. -/
theorem sigchldHandler_jobs (hnodup : (pending.map Report.pid).Nodup)
    (hconsumed : (sigchldHandler t pending).pending = []) (k : Slot) :
    (sigchldHandler t pending).table.jobs k = t.effect pending k := by
  induction pending generalizing t with
  | nil => rfl
  | cons r rest ih =>
      have hrest : (rest.map Report.pid).Nodup := (List.nodup_cons.mp hnodup).2
      by_cases hr : r.isStop = true → t.Lists r.pid
      · rw [(sigchldHandler_cons hr).2] at hconsumed
        rw [(sigchldHandler_cons hr).1, ih hrest hconsumed]
        exact effect_handle hnodup k
      · rw [Classical.not_imp] at hr
        rw [(sigchldHandler_unlisted hr.1 hr.2).2] at hconsumed
        rw [(sigchldHandler_unlisted hr.1 hr.2).1, hconsumed]
        refine (effect_of_unreported ?_).symm
        intro q hq heq
        rw [List.mem_singleton] at hq
        exact hr.2 ⟨k, by rw [← heq, hq]⟩

end Loop

/-! ## Draining -/

/-- Everything is consumed, terminated pids are gone, listed stopped ones are stopped,
and no other entry has changed. -/
structure Drained (t : JobTable) (pending : List Report) (h : Handled) : Prop where
  consumed : h.pending = []
  gone : ∀ r ∈ pending, r.isStop = false → ¬ h.table.Lists r.pid
  stopped : ∀ r ∈ pending, r.isStop = true → ∀ i, (t.jobs i).pid = r.pid →
    h.table.jobs i = { t.jobs i with state := .st }
  others : ∀ i, (∀ r ∈ pending, r.pid ≠ (t.jobs i).pid) → h.table.jobs i = t.jobs i

/-- Only the last report may be about a stopped pid that is not listed; a pid that is
listed twice may only be reported as stopped, when the later entries say so already. -/
structure Drainable (t : JobTable) (pending : List Report) : Prop where
  listed : ∀ r ∈ pending.dropLast, r.isStop = true → t.Lists r.pid
  once : ∀ r ∈ pending, ∀ i j, i < j → (t.jobs i).pid = r.pid → (t.jobs j).pid = r.pid →
    r.isStop = true ∧ (t.jobs j).state = .st

section Drained

variable {t : JobTable} {pending : List Report}

theorem drained_of_drainable (hnodup : (pending.map Report.pid).Nodup)
    (hd : Drainable t pending) : Drained t pending (sigchldHandler t pending) := by
  have hconsumed := (consumed_iff hnodup).mpr hd.listed
  have hjobs := sigchldHandler_jobs hnodup hconsumed
  refine ⟨hconsumed, ?_, ?_, ?_⟩
  · intro r hr hterm hlists
    obtain ⟨k, hk⟩ := hlists
    have hpos := r.pos
    rw [hjobs] at hk
    have hold : (t.jobs k).pid = r.pid := by
      rcases effect_pid t pending k with h | h
      · exact h.symm.trans hk
      · omega
    rw [effect_of_mem hnodup hr hold] at hk
    by_cases hfirst : t.First k
    · rw [if_pos hfirst, Report.change, hterm] at hk
      change (0 : Int) = r.pid at hk
      omega
    · -- an earlier entry has the pid too, so it was stopped
      obtain ⟨i, hlt, hi⟩ := JobTable.exists_earlier hfirst
      have hstop := (hd.once r hr i k hlt (hi.trans hold) hold).1
      rw [hterm] at hstop
      exact Bool.false_ne_true hstop
  · intro r hr hstop k hk
    rw [hjobs, effect_of_mem hnodup hr hk]
    by_cases hfirst : t.First k
    · rw [if_pos hfirst, Report.change, if_pos hstop]
    · obtain ⟨i, hlt, hi⟩ := JobTable.exists_earlier hfirst
      rw [if_neg hfirst, ← (hd.once r hr i k hlt (hi.trans hk) hk).2]
  · intro k hun
    rw [hjobs, effect_of_unreported hun]

theorem drainable_of_drained (hnodup : (pending.map Report.pid).Nodup)
    (hd : Drained t pending (sigchldHandler t pending)) : Drainable t pending := by
  refine ⟨(consumed_iff hnodup).mp hd.consumed, ?_⟩
  intro r hr i j hlt hi hj
  have hfirst : ¬ t.First j := fun h => h i hlt (hi.trans hj.symm)
  have hsame : (sigchldHandler t pending).table.jobs j = t.jobs j := by
    rw [sigchldHandler_jobs hnodup hd.consumed, effect_of_mem hnodup hr hj, if_neg hfirst]
  cases hstop : r.isStop with
  | false => exact (hd.gone r hr hstop ⟨j, by rw [hsame, hj]⟩).elim
  | true =>
      refine ⟨rfl, ?_⟩
      have hst := hd.stopped r hr hstop j hj
      rw [hsame] at hst
      exact congrArg Job.state hst

/-- For every table and every list of reports about different pids, the handler
drains the list exactly when it is drainable. -/
theorem sigchldHandler_drained_iff (hnodup : (pending.map Report.pid).Nodup) :
    Drained t pending (sigchldHandler t pending) ↔ Drainable t pending :=
  ⟨drainable_of_drained hnodup, drained_of_drainable hnodup⟩

end Drained

/-- A table with one foreground job, pid 7, and blank entries. -/
def oneJob : JobTable where
  jobs i := if i.val = 0 then ⟨7, 1, .fg, []⟩ else ⟨0, 0, .undef, []⟩
  nextjid := 2

/-- A child that stops before its `addjob`, and then a listed one that exits. -/
def stopThenExit : List Report := [⟨9, .stopped 20, by decide⟩, ⟨7, .exited, by decide⟩]

theorem stopThenExit_drained_iff :
    Drained oneJob stopThenExit (sigchldHandler oneJob stopThenExit) ↔
      Drainable oneJob stopThenExit :=
  sigchldHandler_drained_iff (by decide)

theorem exists_not_drained :
    ∃ t pending, (pending.map Report.pid).Nodup ∧
      ¬ Drained t pending (sigchldHandler t pending) := by
  refine ⟨oneJob, stopThenExit, by decide, fun h => ?_⟩
  have hpending : (sigchldHandler oneJob stopThenExit).pending = [⟨7, .exited, by decide⟩] := by
    decide +kernel
  rw [h.consumed] at hpending
  cases hpending

/-! ## Orders of reaping -/

section Order

variable {t : JobTable} {r : Report} {pending pending' : List Report}

namespace JobTable

/-- The counter is what the last `deletejob` computed. -/
def Settled (t : JobTable) : Prop := t.nextjid = int32 (t.maxjid + 1)

theorem maxjid_congr {t t' : JobTable} (h : ∀ i, (t'.jobs i).jid = (t.jobs i).jid) :
    t'.maxjid = t.maxjid := by
  unfold maxjid
  simp only [h]

theorem handle_stop_nextjid (hstop : r.isStop = true) : (t.handle r).nextjid = t.nextjid := by
  unfold handle
  rw [if_pos hstop]
  split <;> rfl

theorem handle_stop_maxjid (hstop : r.isStop = true) : (t.handle r).maxjid = t.maxjid := by
  apply maxjid_congr
  intro i
  rw [handle_jobs]
  split
  · rw [Report.change, if_pos hstop]
  · rfl

theorem settled_deletejob {pid : Int} (hpid : 0 < pid) (hlists : t.Lists pid) :
    (t.deletejob pid).1.Settled := by
  rw [deletejob, if_neg (by omega)]
  cases hfind : t.firstJob fun job => job.pid == pid with
  | none =>
      obtain ⟨i, hi⟩ := hlists
      have := firstJob_none hfind i
      simp [hi] at this
  | some i => rfl

end JobTable

theorem settled_handle (hlists : t.Lists r.pid) (h : t.Settled) : (t.handle r).Settled := by
  cases hstop : r.isStop with
  | true =>
      unfold JobTable.Settled
      rw [JobTable.handle_stop_nextjid hstop, JobTable.handle_stop_maxjid hstop]
      exact h
  | false =>
      unfold JobTable.handle
      rw [hstop]
      exact JobTable.settled_deletejob r.pos hlists

/-- The loop with every pid listed: the counter is recomputed by a termination, kept
in step with the table from then on, and otherwise not touched. -/
theorem sigchldHandler_nextjid (hnodup : (pending.map Report.pid).Nodup)
    (hlists : ∀ r ∈ pending, t.Lists r.pid) :
    (t.Settled ∨ (∃ r ∈ pending, r.isStop = false) →
        (sigchldHandler t pending).table.Settled) ∧
      ((∀ r ∈ pending, r.isStop = true) →
        (sigchldHandler t pending).table.nextjid = t.nextjid) := by
  induction pending generalizing t with
  | nil =>
      refine ⟨?_, fun _ => rfl⟩
      simp [sigchldHandler]
  | cons r rest ih =>
      obtain ⟨hr, hrest⟩ := List.forall_mem_cons.mp hlists
      have hlater : ∀ q ∈ rest, (t.handle r).Lists q.pid := fun q hq =>
        (handle_lists_later hnodup hq).mpr (hrest q hq)
      obtain ⟨hsettled, hkept⟩ := ih (List.nodup_cons.mp hnodup).2 hlater
      rw [(sigchldHandler_cons fun _ => hr).1]
      constructor
      · intro h
        apply hsettled
        rcases h with h | ⟨q, hq, hterm⟩
        · exact Or.inl (settled_handle hr h)
        · rcases List.mem_cons.mp hq with rfl | hq
          · left
            unfold JobTable.handle
            rw [hterm]
            exact JobTable.settled_deletejob q.pos hr
          · exact Or.inr ⟨q, hq, hterm⟩
      · intro hall
        obtain ⟨hstop, hstops⟩ := List.forall_mem_cons.mp hall
        rw [hkept hstops, JobTable.handle_stop_nextjid hstop]

theorem effect_perm (hnodup : (pending.map Report.pid).Nodup) (hperm : pending.Perm pending')
    (k : Slot) : t.effect pending k = t.effect pending' k := by
  have hnodup' := (hperm.map Report.pid).nodup_iff.mp hnodup
  by_cases hk : ∃ r ∈ pending, (t.jobs k).pid = r.pid
  · obtain ⟨r, hr, hk⟩ := hk
    rw [effect_of_mem hnodup hr hk, effect_of_mem hnodup' (hperm.mem_iff.mp hr) hk]
  · have hun : ∀ r ∈ pending, r.pid ≠ (t.jobs k).pid := fun r hr heq => hk ⟨r, hr, heq.symm⟩
    rw [effect_of_unreported hun,
      effect_of_unreported fun r hr => hun r (hperm.mem_iff.mpr hr)]

/-- Reports about different listed pids leave the same table, the counter included,
in whatever order they are taken. -/
theorem sigchldHandler_perm (hnodup : (pending.map Report.pid).Nodup)
    (hlists : ∀ r ∈ pending, t.Lists r.pid) (hperm : pending.Perm pending') :
    (sigchldHandler t pending).table = (sigchldHandler t pending').table := by
  have hnodup' := (hperm.map Report.pid).nodup_iff.mp hnodup
  have hlists' : ∀ r ∈ pending', t.Lists r.pid := fun r hr => hlists r (hperm.mem_iff.mpr hr)
  have hconsumed := (consumed_iff hnodup).mpr fun r hr _ => hlists r (List.dropLast_subset _ hr)
  have hconsumed' :=
    (consumed_iff hnodup').mpr fun r hr _ => hlists' r (List.dropLast_subset _ hr)
  have hjobs : (sigchldHandler t pending).table.jobs = (sigchldHandler t pending').table.jobs := by
    funext k
    rw [sigchldHandler_jobs hnodup hconsumed, sigchldHandler_jobs hnodup' hconsumed',
      effect_perm hnodup hperm]
  obtain ⟨hsettled, hkept⟩ := sigchldHandler_nextjid hnodup hlists
  obtain ⟨hsettled', hkept'⟩ := sigchldHandler_nextjid hnodup' hlists'
  have hnext : (sigchldHandler t pending).table.nextjid =
      (sigchldHandler t pending').table.nextjid := by
    by_cases hterm : ∃ r ∈ pending, r.isStop = false
    · obtain ⟨r, hr, hterm⟩ := hterm
      have hleft : (sigchldHandler t pending).table.Settled := hsettled (Or.inr ⟨r, hr, hterm⟩)
      have hright : (sigchldHandler t pending').table.Settled :=
        hsettled' (Or.inr ⟨r, hperm.mem_iff.mp hr, hterm⟩)
      have hmax : (sigchldHandler t pending).table.maxjid =
          (sigchldHandler t pending').table.maxjid := JobTable.maxjid_congr fun i => by rw [hjobs]
      unfold JobTable.Settled at hleft hright
      rw [hleft, hright, hmax]
    · have hall : ∀ r ∈ pending, r.isStop = true := by
        intro r hr
        by_contra hne
        exact hterm ⟨r, hr, by simpa using hne⟩
      rw [hkept hall, hkept' fun r hr => hall r (hperm.mem_iff.mpr hr)]
  exact JobTable.ext hjobs hnext

end Order

/-- Three jobs with a gap in their ids. -/
def threeJobs : JobTable where
  jobs i :=
    if i.val = 0 then ⟨7, 4, .bg, []⟩ else if i.val = 2 then ⟨9, 1, .fg, []⟩
    else if i.val = 3 then ⟨8, 16, .bg, []⟩ else ⟨0, 0, .undef, []⟩
  nextjid := 1

theorem threeJobs_perm :
    (sigchldHandler threeJobs
        [⟨8, .signaled 9, by decide⟩, ⟨9, .stopped 20, by decide⟩, ⟨7, .exited, by decide⟩]).table =
      (sigchldHandler threeJobs
        [⟨7, .exited, by decide⟩, ⟨8, .signaled 9, by decide⟩,
          ⟨9, .stopped 20, by decide⟩]).table :=
  sigchldHandler_perm (by decide) (by decide +kernel) (by decide)

/-! ## The handler of the interleaved shell -/

section Steps

variable {s s' : State} {r : Report}

/-- The status of the reported child is the one that the report tells. -/
def State.Answers (s : State) (r : Report) : Prop :=
  r.pid ∈ s.forked ∧
    match r.status with
    | .stopped _ => s.status r.pid = .stopped
    | .signaled _ => s.status r.pid = .signaled
    | .exited => s.status r.pid = .exited

theorem waitStep_handle (h : s.Answers r) (hlists : r.isStop = true → s.table.Lists r.pid) :
    ∃ c, s.waitStep r.pid = some { s with
      status := Function.update s.status r.pid c
      table := s.table.handle r } := by
  obtain ⟨hmem, hstatus⟩ := h
  unfold Report.isStop at hlists
  unfold State.waitStep JobTable.handle Report.isStop
  rw [if_pos hmem]
  split at hstatus
  next hs =>
    simp only [hs, hstatus, if_true, forall_const] at hlists ⊢
    cases hget : s.table.getjobpid r.pid with
    | none => exact absurd hlists ((JobTable.getjobpid_eq_none_iff r.pos).mp hget)
    | some i => exact ⟨_, rfl⟩
  next =>
    simp only [hstatus]
    exact ⟨_, rfl⟩
  next =>
    simp only [hstatus]
    exact ⟨_, rfl⟩

/-- Taken one by one as `wait` steps, the reports leave the table of one run of the
handler. -/
theorem run_wait (mask : List Signal) {pending : List Report} (hin : s.inHandler = true)
    (hnodup : (pending.map Report.pid).Nodup) (hanswers : ∀ r ∈ pending, s.Answers r)
    (hlists : ∀ r ∈ pending, r.isStop = true → s.table.Lists r.pid) :
    ∃ status, (shellMasking mask).run s (pending.map fun r => .wait r.pid) = some { s with
      status := status
      table := (sigchldHandler s.table pending).table } := by
  induction pending generalizing s with
  | nil => exact ⟨s.status, rfl⟩
  | cons r rest ih =>
      obtain ⟨hr, hrest⟩ := List.forall_mem_cons.mp hanswers
      obtain ⟨hl, hlrest⟩ := List.forall_mem_cons.mp hlists
      obtain ⟨c, hstep⟩ := waitStep_handle hr hl
      obtain ⟨status, hrun⟩ := ih (s := { s with
          status := Function.update s.status r.pid c
          table := s.table.handle r }) hin (List.nodup_cons.mp hnodup).2
        (fun q hq => by
          have hkept := hrest q hq
          unfold State.Answers at hkept ⊢
          simpa [Function.update_of_ne (pid_ne_of_nodup hnodup hq)] using hkept)
        (fun q hq hstop => (handle_lists_later hnodup hq).mpr (hlrest q hq hstop))
      refine ⟨status, ?_⟩
      rw [List.map_cons, System.run_cons, (sigchldHandler_cons hl).1, ← hrun]
      have hwait : (shellMasking mask).step s (.wait r.pid) = s.waitStep r.pid := if_pos hin
      rw [hwait, hstep]
      rfl

end Steps

end CompOrg.Shell
