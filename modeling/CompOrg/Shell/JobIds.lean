import CompOrg.Lib.TransitionSystem
import CompOrg.Shell.JobTable

/-! # Job ids over runs of `addjob` and `deletejob`

`addjob` advances the counter and wraps it, `deletejob` recomputes it. An id is
handed out again when the counter has wrapped while the old job of that id is
still in the table; the runs in which that never happens are the runs in which
ids identify jobs.
-/

namespace CompOrg.Shell

inductive TableCall
  | add (pid : Int) (state : JobState) (cmdline : List UInt8)
  | delete (pid : Int)
  deriving DecidableEq

/-- Pids are positive and not added twice. -/
def TableCall.Valid (t : JobTable) : TableCall → Prop
  | .add pid _ _ => 0 < pid ∧ ∀ i, (t.jobs i).pid ≠ pid
  | .delete _ => True

/-- An `addjob` that finds a slot takes an id that no job in the table has. -/
def TableCall.Fresh (t : JobTable) : TableCall → Prop
  | .add _ _ _ => (∃ i, (t.jobs i).pid = 0) →
      0 < t.nextjid ∧ ∀ i, (t.jobs i).pid ≠ 0 → (t.jobs i).jid ≠ t.nextjid
  | .delete _ => True

instance (t : JobTable) : ∀ e, Decidable (TableCall.Valid t e)
  | .add pid _ _ => inferInstanceAs (Decidable (0 < pid ∧ ∀ i, (t.jobs i).pid ≠ pid))
  | .delete _ => isTrue trivial

instance (t : JobTable) : ∀ e, Decidable (TableCall.Fresh t e)
  | .add _ _ _ => inferInstanceAs (Decidable ((∃ i, (t.jobs i).pid = 0) →
      0 < t.nextjid ∧ ∀ i, (t.jobs i).pid ≠ 0 → (t.jobs i).jid ≠ t.nextjid))
  | .delete _ => isTrue trivial

/-- Calls of the two routines from an initialised table, over any array. -/
def jobTable : System JobTable TableCall where
  init t := ∃ stale : JobTable, stale.nextjid = 1 ∧ t = stale.initjobs
  step t
    | .add pid state cmdline => some (t.addjob pid state cmdline).1
    | .delete pid => some (t.deletejob pid).1

namespace JobTable

variable {t : JobTable} {pid : Int} {i j : Slot}

/-- Ids of jobs differ, and every job is found again through its id. -/
def Identified (t : JobTable) : Prop :=
  (∀ i j, (t.jobs i).pid ≠ 0 → (t.jobs j).pid ≠ 0 → (t.jobs i).jid = (t.jobs j).jid → i = j) ∧
    ∀ i, (t.jobs i).pid ≠ 0 → t.getjobjid (t.pid2jid (t.jobs i).pid) = some i

/-- What both routines keep whatever the ids are. -/
structure Tidy (t : JobTable) : Prop where
  nonneg : ∀ i, 0 ≤ (t.jobs i).pid
  distinct : t.Distinct
  empty : ∀ i, (t.jobs i).pid = 0 → (t.jobs i).jid = 0

theorem Tidy.pos (ht : t.Tidy) (h : (t.jobs i).pid ≠ 0) : 0 < (t.jobs i).pid := by
  have := ht.nonneg i
  omega

/-- On a tidy table, ids identify jobs when they are positive and differ. -/
theorem identified_iff (ht : t.Tidy) :
    t.Identified ↔ (∀ i, (t.jobs i).pid ≠ 0 → 0 < (t.jobs i).jid) ∧
      ∀ i j, (t.jobs i).pid ≠ 0 → (t.jobs j).pid ≠ 0 → (t.jobs i).jid = (t.jobs j).jid → i = j := by
  constructor
  · rintro ⟨hdistinct, hfound⟩
    refine ⟨fun i hi => ?_, hdistinct⟩
    have h := getjobjid_some (hfound i hi)
    rw [h.1]
    exact h.2
  · rintro ⟨hpos, hdistinct⟩
    refine ⟨hdistinct, fun i hi => ?_⟩
    rw [pid2jid_eq ht.distinct rfl (ht.pos hi)]
    have hjid := hpos i hi
    rw [getjobjid, if_neg (by omega)]
    refine firstJob_of_unique (by simp) fun j hj => ?_
    have hj' : (t.jobs j).jid = (t.jobs i).jid := by simpa using hj
    refine hdistinct j i (fun hempty => ?_) hi hj'
    have := ht.empty j hempty
    omega

theorem tidy_initjobs (t : JobTable) : t.initjobs.Tidy where
  nonneg _ := Int.le_refl 0
  distinct _ _ h := (h rfl).elim
  empty _ _ := rfl

theorem identified_initjobs (t : JobTable) : t.initjobs.Identified :=
  ⟨fun _ _ h => (h rfl).elim, fun _ h => (h rfl).elim⟩

/-! ## `addjob` -/

/-- The table after the statements of `addjob` on slot `i`, field by field. -/
theorem addjob_of_slot (state : JobState) (cmdline : List UInt8) (hpid : 0 < pid)
    (hi : t.firstJob (fun job => job.pid == 0) = some i) (j : Slot) :
    (((t.addjob pid state cmdline).1.jobs j).pid = if j = i then pid else (t.jobs j).pid) ∧
      (((t.addjob pid state cmdline).1.jobs j).jid =
        if j = i then t.nextjid else (t.jobs j).jid) := by
  rw [addjob, if_neg (by omega), hi]
  simp

theorem addjob_of_full {state : JobState} {cmdline : List UInt8}
    (hfull : t.firstJob (fun job => job.pid == 0) = none) :
    (t.addjob pid state cmdline).1 = t := by
  rw [addjob]
  split
  · rfl
  · rw [hfull]

theorem tidy_addjob {state : JobState} {cmdline : List UInt8} (ht : t.Tidy) (hpid : 0 < pid)
    (hnew : ∀ i, (t.jobs i).pid ≠ pid) : (t.addjob pid state cmdline).1.Tidy := by
  cases hslot : t.firstJob fun job => job.pid == 0 with
  | none =>
      rw [addjob_of_full hslot]
      exact ht
  | some i =>
      have hjobs := addjob_of_slot state cmdline hpid hslot
      refine ⟨fun j => ?_, fun j k => ?_, fun j => ?_⟩
      · rw [(hjobs j).1]
        split
        · omega
        · exact ht.nonneg j
      · rw [(hjobs j).1, (hjobs k).1]
        have := hnew j
        have := hnew k
        split <;> split <;> intro hne heq
        · simp_all
        · omega
        · omega
        · exact ht.distinct j k hne heq
      · rw [(hjobs j).1, (hjobs j).2]
        split
        · intro h
          omega
        · exact ht.empty j

/-- An added job keeps the ids apart exactly when its own id is fresh. -/
theorem identified_addjob_iff {state : JobState} {cmdline : List UInt8} (ht : t.Tidy)
    (hid : t.Identified) (hpid : 0 < pid) (hnew : ∀ i, (t.jobs i).pid ≠ pid) :
    (t.addjob pid state cmdline).1.Identified ↔ TableCall.Fresh t (.add pid state cmdline) := by
  cases hslot : t.firstJob fun job => job.pid == 0 with
  | none =>
      rw [addjob_of_full hslot]
      refine iff_of_true hid ?_
      rintro ⟨i, hi⟩
      have := firstJob_none hslot i
      simp [hi] at this
  | some i =>
      have hempty : (t.jobs i).pid = 0 := by simpa using firstJob_some hslot
      have hjobs := addjob_of_slot state cmdline hpid hslot
      obtain ⟨hpos, hdistinct⟩ := (identified_iff ht).mp hid
      rw [identified_iff (tidy_addjob ht hpid hnew)]
      simp only [(hjobs _).1, (hjobs _).2]
      constructor
      · rintro ⟨hpos', hdistinct'⟩ -
        refine ⟨by simpa using hpos' i (by simp; omega), fun j hj heq => ?_⟩
        have hji : j ≠ i := fun h => hj (h ▸ hempty)
        exact hji (hdistinct' j i (by simpa [hji] using hj) (by simp; omega) (by simp [hji, heq]))
      · intro hfresh
        obtain ⟨hnext, hne⟩ := hfresh ⟨i, hempty⟩
        refine ⟨fun j => ?_, fun j k => ?_⟩
        · split
          · exact fun _ => hnext
          · exact hpos j
        · split <;> split <;> intro hj hk heq
          · simp_all
          · exact (hne k hk heq.symm).elim
          · exact (hne j hj heq).elim
          · exact hdistinct j k hj hk heq

/-! ## `deletejob` -/

theorem tidy_deletejob (ht : t.Tidy) (pid : Int) : (t.deletejob pid).1.Tidy := by
  by_cases hpid : 0 < pid
  · have hjobs := deletejob_jobs ht.distinct hpid
    refine ⟨fun j => ?_, fun j k => ?_, fun j => ?_⟩
    · rw [hjobs j]
      split
      · exact Int.le_refl 0
      · exact ht.nonneg j
    · rw [hjobs j, hjobs k]
      split <;> split <;> intro hne heq
      · exact (hne rfl).elim
      · exact (hne rfl).elim
      · exact (hne heq).elim
      · exact ht.distinct j k hne heq
    · rw [hjobs j]
      split
      · exact fun _ => rfl
      · exact ht.empty j
  · rw [deletejob_of_lt_one (by omega)]
    exact ht

theorem identified_deletejob (ht : t.Tidy) (hid : t.Identified) (pid : Int) :
    (t.deletejob pid).1.Identified := by
  by_cases hpid : 0 < pid
  · have hjobs := deletejob_jobs ht.distinct hpid
    have hlive : ∀ j, ((t.deletejob pid).1.jobs j).pid ≠ 0 →
        (t.deletejob pid).1.jobs j = t.jobs j := by
      intro j
      rw [hjobs j]
      split
      · exact fun h => (h rfl).elim
      · exact fun _ => rfl
    obtain ⟨hpos, hdistinct⟩ := (identified_iff ht).mp hid
    rw [identified_iff (tidy_deletejob ht pid)]
    refine ⟨fun j hj => ?_, fun j k hj hk heq => ?_⟩
    · have hsame := hlive j hj
      rw [hsame] at hj ⊢
      exact hpos j hj
    · have hsame := hlive j hj
      have hsame' := hlive k hk
      rw [hsame] at hj heq
      rw [hsame'] at hk heq
      exact hdistinct j k hj hk heq
  · rw [deletejob_of_lt_one (by omega)]
    exact hid

end JobTable

/-! ## Runs -/

theorem tableCall_step {t : JobTable} {e : TableCall} (ht : t.Tidy) (hid : t.Identified)
    (hv : e.Valid t) :
    ∃ t', jobTable.step t e = some t' ∧ t'.Tidy ∧ (t'.Identified ↔ e.Fresh t) := by
  cases e with
  | add pid state cmdline =>
      exact ⟨_, rfl, JobTable.tidy_addjob ht hv.1 hv.2,
        JobTable.identified_addjob_iff ht hid hv.1 hv.2⟩
  | delete pid =>
      exact ⟨_, rfl, JobTable.tidy_deletejob ht pid,
        iff_of_true (JobTable.identified_deletejob ht hid pid) trivial⟩

theorem always_identified_iff (stale : JobTable) {es : List TableCall}
    (hvalid : jobTable.Meets (fun t e => e.Valid t) stale.initjobs es) :
    jobTable.Always JobTable.Identified stale.initjobs es ↔
      jobTable.Meets (fun t e => e.Fresh t) stale.initjobs es :=
  jobTable.always_iff_meets (fun _ _ => tableCall_step) stale.tidy_initjobs
    stale.identified_initjobs hvalid

/-- Ids identify jobs in every state of a run exactly when every `addjob` of the run
takes an id that is free. -/
theorem run_identified_iff {t : JobTable} {es : List TableCall} (hinit : jobTable.init t)
    (hvalid : jobTable.Meets (fun t e => e.Valid t) t es) :
    jobTable.Always JobTable.Identified t es ↔
      jobTable.Meets (fun t e => e.Fresh t) t es := by
  obtain ⟨stale, -, rfl⟩ := hinit
  exact always_identified_iff stale hvalid

/-- An empty table before the first job. -/
def emptyTable : JobTable := JobTable.initjobs ⟨fun _ => ⟨0, 0, .undef, []⟩, 1⟩

theorem emptyTable_init : jobTable.init emptyTable := ⟨⟨fun _ => ⟨0, 0, .undef, []⟩, 1⟩, rfl, rfl⟩

/-- A job runs on while fifteen others come and one of them goes. -/
def wrappingRun : List TableCall :=
  (List.range 15).map (fun n => .add (n + 1) .bg []) ++
    [.delete 2, .add 16 .bg [], .add 17 .bg []]

theorem wrappingRun_identified_iff :
    jobTable.Always JobTable.Identified emptyTable wrappingRun ↔
      jobTable.Meets (fun t e => e.Fresh t) emptyTable wrappingRun :=
  run_identified_iff emptyTable_init (by decide +kernel)

/-- After the counter has wrapped, the last job gets the id of the first. -/
theorem exists_run_not_identified :
    ¬ ∀ t es, jobTable.init t → jobTable.Meets (fun t e => e.Valid t) t es →
      jobTable.Always JobTable.Identified t es := by
  intro h
  have hvalid : jobTable.Meets (fun t e => e.Valid t) emptyTable wrappingRun := by decide +kernel
  have hstale : ¬ jobTable.Meets (fun t e => e.Fresh t) emptyTable wrappingRun := by
    decide +kernel
  have halways := h emptyTable wrappingRun emptyTable_init hvalid
  exact hstale ((always_identified_iff _ hvalid).mp halways)

end CompOrg.Shell
