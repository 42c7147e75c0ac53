import CompOrg.Lib.CStdlib
import Mathlib.Logic.Function.Basic
import Mathlib.Data.List.FinRange

/-! # The job table of `tsh.c`

The array `jobs` with the counter `nextjid`, and the helper routines over it. An
`int` wraps at 32 bits. Entries are named by their slot, which is what the source
passes around as a `struct job_t *`. The assignments of `addjob` are functions of
their own, since a signal handler may run between any two of them.
-/

namespace CompOrg.Shell

abbrev MAXJOBS : Nat := 16

abbrev Slot := Fin MAXJOBS

/-- `UNDEF`, `FG`, `BG`, `ST`. -/
inductive JobState
  | undef
  | fg
  | bg
  | st
  deriving DecidableEq

structure Job where
  pid : Int
  jid : Int
  state : JobState
  /-- The whole character array, also behind the terminating zero. -/
  cmdline : List UInt8
  deriving DecidableEq

@[ext]
structure JobTable where
  jobs : Slot → Job
  nextjid : Int

def strcpy (dst src : List UInt8) : List UInt8 := src ++ 0 :: dst.drop (src.length + 1)

def clearjob (job : Job) : Job := ⟨0, 0, .undef, job.cmdline.set 0 0⟩

namespace JobTable

def initjobs (t : JobTable) : JobTable := { t with jobs := fun i => clearjob (t.jobs i) }

/-- `for (i = 0; i < MAXJOBS; i++) if (..) return ..` -/
def firstJob (t : JobTable) (f : Job → Bool) : Option Slot :=
  (List.finRange MAXJOBS).find? fun i => f (t.jobs i)

def maxjid (t : JobTable) : Int :=
  (List.finRange MAXJOBS).foldl
    (fun max i => if (t.jobs i).jid > max then (t.jobs i).jid else max) 0

def modify (t : JobTable) (i : Slot) (f : Job → Job) : JobTable :=
  { t with jobs := Function.update t.jobs i (f (t.jobs i)) }

/-! ## The statements of `addjob` -/

/-- `jobs[i].pid = pid;` -/
def setPid (t : JobTable) (i : Slot) (pid : Int) : JobTable :=
  t.modify i fun job => { job with pid := pid }

/-- `jobs[i].state = state;` -/
def setState (t : JobTable) (i : Slot) (state : JobState) : JobTable :=
  t.modify i fun job => { job with state := state }

/-- `jobs[i].jid = nextjid++;` -/
def takeJid (t : JobTable) (i : Slot) : JobTable :=
  { t.modify i fun job => { job with jid := t.nextjid } with nextjid := int32 (t.nextjid + 1) }

/-- `if (nextjid > MAXJOBS) nextjid = 1;` -/
def wrapJid (t : JobTable) : JobTable := if t.nextjid > MAXJOBS then { t with nextjid := 1 } else t

/-- `strcpy(jobs[i].cmdline, cmdline);` -/
def copyCmdline (t : JobTable) (i : Slot) (cmdline : List UInt8) : JobTable :=
  t.modify i fun job => { job with cmdline := strcpy job.cmdline cmdline }

def addjob (t : JobTable) (pid : Int) (state : JobState) (cmdline : List UInt8) : JobTable × Int :=
  if pid < 1 then (t, 0)
  else
    match t.firstJob fun job => job.pid == 0 with
    | some i => ((((t.setPid i pid).setState i state).takeJid i).wrapJid.copyCmdline i cmdline, 1)
    | none => (t, 0)

/-! ## The other routines -/

def deletejob (t : JobTable) (pid : Int) : JobTable × Int :=
  if pid < 1 then (t, 0)
  else
    match t.firstJob fun job => job.pid == pid with
    | some i =>
        let t := t.modify i clearjob
        ({ t with nextjid := int32 (t.maxjid + 1) }, 1)
    | none => (t, 0)

def fgpid (t : JobTable) : Int :=
  match t.firstJob fun job => job.state == .fg with
  | some i => (t.jobs i).pid
  | none => 0

def getjobpid (t : JobTable) (pid : Int) : Option Slot :=
  if pid < 1 then none else t.firstJob fun job => job.pid == pid

def getjobjid (t : JobTable) (jid : Int) : Option Slot :=
  if jid < 1 then none else t.firstJob fun job => job.jid == jid

def pid2jid (t : JobTable) (pid : Int) : Int :=
  if pid < 1 then 0
  else
    match t.firstJob fun job => job.pid == pid with
    | some i => (t.jobs i).jid
    | none => 0

def jobsInBackgroundOrStopped (t : JobTable) : Int :=
  match t.firstJob fun job => job.state == .bg || job.state == .st with
  | some _ => 1
  | none => 0

/-! ## Loops over the slots -/

variable {t : JobTable} {f : Job → Bool} {i j : Slot} {pid : Int}

theorem firstJob_some (h : t.firstJob f = some i) : f (t.jobs i) = true :=
  List.find?_some (p := fun i => f (t.jobs i)) h

theorem firstJob_none (h : t.firstJob f = none) (i : Slot) : f (t.jobs i) = false := by
  have := List.find?_eq_none.mp h i (List.mem_finRange i)
  simpa using this

/-- A loop stops at the only slot that satisfies its test. -/
theorem firstJob_of_unique (hi : f (t.jobs i) = true)
    (hunique : ∀ j, f (t.jobs j) = true → j = i) : t.firstJob f = some i := by
  cases h : t.firstJob f with
  | none => simp [firstJob_none h i] at hi
  | some j => rw [hunique j (firstJob_some h)]

/-- A loop stops at the first slot that satisfies its test. -/
theorem firstJob_of_first (hi : f (t.jobs i) = true) (hlt : ∀ j, j < i → f (t.jobs j) = false) :
    t.firstJob f = some i := by
  refine List.find?_eq_some_iff_getElem.mpr ⟨hi, i.val, by simp, by simp, fun j hj => ?_⟩
  have := hlt ⟨j, by omega⟩ hj
  simpa using this

theorem firstJob_lt (h : t.firstJob f = some i) (hlt : j < i) : f (t.jobs j) = false := by
  obtain ⟨-, n, hn, hi, hbefore⟩ := List.find?_eq_some_iff_getElem.mp h
  have hni : n = i.val := by simpa using congrArg Fin.val hi
  have hjn : j.val < n := hni ▸ hlt
  have := hbefore j.val hjn
  simpa using this

theorem firstJob_of_none (h : ∀ i, f (t.jobs i) = false) : t.firstJob f = none :=
  List.find?_eq_none.mpr fun i _ => by simp [h i]

/-! ## Updates -/

theorem modify_jobs (t : JobTable) (i : Slot) (g : Job → Job) (j : Slot) :
    (t.modify i g).jobs j = if j = i then g (t.jobs j) else t.jobs j := by
  simp only [modify, Function.update_apply]
  split
  next h => rw [h]
  next => rfl

@[simp] theorem setPid_pid (t : JobTable) (i j : Slot) (pid : Int) :
    ((t.setPid i pid).jobs j).pid = if j = i then pid else (t.jobs j).pid := by
  simp only [setPid, modify_jobs]
  split <;> rfl

@[simp] theorem setPid_jid (t : JobTable) (i j : Slot) (pid : Int) :
    ((t.setPid i pid).jobs j).jid = (t.jobs j).jid := by
  simp only [setPid, modify_jobs]
  split <;> rfl

@[simp] theorem setPid_state (t : JobTable) (i j : Slot) (pid : Int) :
    ((t.setPid i pid).jobs j).state = (t.jobs j).state := by
  simp only [setPid, modify_jobs]
  split <;> rfl

@[simp] theorem setPid_nextjid (t : JobTable) (i : Slot) (pid : Int) :
    (t.setPid i pid).nextjid = t.nextjid := rfl

@[simp] theorem setState_pid (t : JobTable) (i j : Slot) (state : JobState) :
    ((t.setState i state).jobs j).pid = (t.jobs j).pid := by
  simp only [setState, modify_jobs]
  split <;> rfl

@[simp] theorem setState_jid (t : JobTable) (i j : Slot) (state : JobState) :
    ((t.setState i state).jobs j).jid = (t.jobs j).jid := by
  simp only [setState, modify_jobs]
  split <;> rfl

@[simp] theorem setState_state (t : JobTable) (i j : Slot) (state : JobState) :
    ((t.setState i state).jobs j).state = if j = i then state else (t.jobs j).state := by
  simp only [setState, modify_jobs]
  split <;> rfl

@[simp] theorem setState_nextjid (t : JobTable) (i : Slot) (state : JobState) :
    (t.setState i state).nextjid = t.nextjid := rfl

@[simp] theorem takeJid_pid (t : JobTable) (i j : Slot) :
    ((t.takeJid i).jobs j).pid = (t.jobs j).pid := by
  simp only [takeJid, modify_jobs]
  split <;> rfl

@[simp] theorem takeJid_jid (t : JobTable) (i j : Slot) :
    ((t.takeJid i).jobs j).jid = if j = i then t.nextjid else (t.jobs j).jid := by
  simp only [takeJid, modify_jobs]
  split <;> rfl

@[simp] theorem takeJid_state (t : JobTable) (i j : Slot) :
    ((t.takeJid i).jobs j).state = (t.jobs j).state := by
  simp only [takeJid, modify_jobs]
  split <;> rfl

@[simp] theorem wrapJid_jobs (t : JobTable) : t.wrapJid.jobs = t.jobs := by
  unfold wrapJid
  split <;> rfl

@[simp] theorem copyCmdline_pid (t : JobTable) (i j : Slot) (cmdline : List UInt8) :
    ((t.copyCmdline i cmdline).jobs j).pid = (t.jobs j).pid := by
  simp only [copyCmdline, modify_jobs]
  split <;> rfl

@[simp] theorem copyCmdline_jid (t : JobTable) (i j : Slot) (cmdline : List UInt8) :
    ((t.copyCmdline i cmdline).jobs j).jid = (t.jobs j).jid := by
  simp only [copyCmdline, modify_jobs]
  split <;> rfl

@[simp] theorem copyCmdline_state (t : JobTable) (i j : Slot) (cmdline : List UInt8) :
    ((t.copyCmdline i cmdline).jobs j).state = (t.jobs j).state := by
  simp only [copyCmdline, modify_jobs]
  split <;> rfl

/-! ## Tables without repeated pids -/

/-- No two entries in use have the same pid. -/
def Distinct (t : JobTable) : Prop :=
  ∀ i j, (t.jobs i).pid ≠ 0 → (t.jobs i).pid = (t.jobs j).pid → i = j

/-- The loop of `getjobpid`, `pid2jid` and `deletejob` finds the entry of its pid. -/
theorem firstJob_pid (hd : t.Distinct) (hi : (t.jobs i).pid = pid) (hpid : pid ≠ 0) :
    t.firstJob (fun job => job.pid == pid) = some i := by
  refine firstJob_of_unique (by simp [hi]) fun j hj => ?_
  have hj' : (t.jobs j).pid = pid := by simpa using hj
  exact hd j i (hj' ▸ hpid) (hj'.trans hi.symm)

theorem getjobpid_some (h : t.getjobpid pid = some i) : (t.jobs i).pid = pid ∧ 0 < pid := by
  unfold getjobpid at h
  split at h
  next => simp at h
  next hlt => exact ⟨by simpa using firstJob_some h, by omega⟩

theorem getjobpid_none (h : t.getjobpid pid = none) (hpid : 0 < pid) (i : Slot) :
    (t.jobs i).pid ≠ pid := by
  rw [getjobpid, if_neg (by omega)] at h
  simpa using firstJob_none h i

theorem getjobjid_some {jid : Int} (h : t.getjobjid jid = some i) :
    (t.jobs i).jid = jid ∧ 0 < jid := by
  unfold getjobjid at h
  split at h
  next => simp at h
  next hlt => exact ⟨by simpa using firstJob_some h, by omega⟩

theorem pid2jid_eq (hd : t.Distinct) (hi : (t.jobs i).pid = pid) (hpid : 0 < pid) :
    t.pid2jid pid = (t.jobs i).jid := by
  rw [pid2jid, if_neg (by omega), firstJob_pid hd hi (by omega)]

/-- What `deletejob` does to every entry. -/
theorem deletejob_jobs (hd : t.Distinct) (hpid : 0 < pid) (j : Slot) :
    (t.deletejob pid).1.jobs j =
      if (t.jobs j).pid = pid then clearjob (t.jobs j) else t.jobs j := by
  rw [deletejob, if_neg (by omega)]
  cases h : t.firstJob fun job => job.pid == pid with
  | none =>
      have hj : (t.jobs j).pid ≠ pid := by simpa using firstJob_none h j
      rw [if_neg hj]
  | some i =>
      have hi : (t.jobs i).pid = pid := by simpa using firstJob_some h
      have hiff : (t.jobs j).pid = pid ↔ j = i :=
        ⟨fun hj => hd j i (by omega) (hj.trans hi.symm), fun hj => hj ▸ hi⟩
      change (t.modify i clearjob).jobs j = _
      rw [modify_jobs]
      simp only [hiff]

theorem deletejob_of_lt_one (h : pid < 1) : (t.deletejob pid).1 = t := by
  rw [deletejob, if_pos h]

end JobTable

end CompOrg.Shell
