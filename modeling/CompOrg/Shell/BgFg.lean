import CompOrg.Lib.Numerals
import CompOrg.Shell.Model

/-! # `bg` and `fg`

The decisions of `do_bgfg`, where `kill` succeeds. An argument without any character other
than white space ends the shell, and after a lone `%` the variable `jid` is read although
nothing was stored in it. Apart from these, and from numerals that do not fit an `int` or
that name an entry which is not in use, the command acts on the job that was named.
-/

namespace CompOrg.Shell

/-! ## The command -/

/-- `%d` of `printf`. -/
def decimal (n : Int) : List UInt8 := ascii (toString n).toList

/-- `%s` of `printf` on a character array. -/
def cstring (array : List UInt8) : List UInt8 := array.takeWhile (· ≠ 0)

/-- How `do_bgfg` ends. -/
inductive BgfgResult
  | exits
  /-- `jid` is passed on without a value. -/
  | unset
  | message (table : JobTable) (printed : List UInt8)
  /-- `SIGCONT` went to the group of the job in this slot. -/
  | background (i : Slot) (table : JobTable) (printed : List UInt8)
  /-- Likewise, and `waitfg` was called for the pid. -/
  | foreground (i : Slot) (table : JobTable) (pid : Int)

/-- `argv[0]` -/
def bgfgName (fg : Bool) : List UInt8 := if fg then ascii ['f', 'g'] else ascii ['b', 'g']

/-- The branch for a job that was found. -/
def continueJob (t : JobTable) (fg : Bool) (i : Slot) : BgfgResult :=
  if fg then .foreground i (t.setState i .fg) ((t.setState i .fg).jobs i).pid
  else
    .background i (t.setState i .bg) (ascii ['['] ++ decimal (t.jobs i).jid ++
      ascii [']', ' ', '('] ++ decimal (t.jobs i).pid ++ ascii [')', ' '] ++
      cstring (t.jobs i).cmdline)

def doBgfg (t : JobTable) (fg : Bool) (argv1 : Option (List UInt8)) : BgfgResult :=
  match argv1 with
  | none =>
      .message t (bgfgName fg ++
        ascii " command requires PID or %jobid argument.\n".toList)
  | some arg =>
      match scanInt arg with
      | .matched pid =>
          match t.getjobpid pid with
          | none => .message t (ascii ['('] ++ decimal pid ++ ascii "): No such process.\n".toList)
          | some i => continueJob t fg i
      | .mismatch =>
          match scanPercentInt arg with
          | .mismatch =>
              .message t (bgfgName fg ++ ascii ": argument must be a PID or %jobid.\n".toList)
          | .matched jid =>
              match t.getjobjid jid with
              | none => .message t (arg ++ ascii " : No such job.\n".toList)
              | some i => continueJob t fg i
          | .eof => .unset
      | .eof => .exits

/-! ## What the scans answer -/

/-- What a numeral leaves in an `int`: it is read as a `long`. -/
def stored (n : Int) : Int := int32 (max (-2 ^ 63) (min (2 ^ 63 - 1) n))

/-- After white space the string goes on with `%` and an integer. -/
def BeginsWithPercent (s : List UInt8) (n : Int) : Prop :=
  ∃ spaces rest, s = spaces ++ '%'.toUInt8 :: rest ∧ Spaces spaces ∧ BeginsWith rest n

/-- Nothing but white space stands before and behind the first `%`. -/
def LonePercent (s : List UInt8) : Prop :=
  ∃ spaces rest, s = spaces ++ '%'.toUInt8 :: rest ∧ Spaces spaces ∧ Spaces rest

section Scans

variable {s spaces rest : List UInt8} {n : Int}

theorem stored_eq_iff : stored n = n ↔ -2 ^ 31 ≤ n ∧ n < 2 ^ 31 := by
  unfold stored int32
  rw [Int.bmod_def]
  split <;> omega

theorem scanDigits_eq (negative : Bool) (s : List UInt8) :
    scanDigits negative s = match unsigned s with
      | some n => .matched (stored (if negative then -n else n))
      | none => .mismatch := by
  have hspan : (s.takeWhile fun c => decide (digitValue c < 10)) = s.takeWhile isdigit := rfl
  unfold scanDigits unsigned
  rw [hspan]
  cases hs : s.takeWhile isdigit with
  | nil => rfl
  | cons c cs =>
      have hvalue : magnitude 10 s = decimalValue (c :: cs) := by
        rw [← hs]
        rfl
      dsimp only
      rw [hvalue]
      rfl

theorem scanInt_eq (s : List UInt8) :
    scanInt s = match numeral s with
      | some n => .matched (stored n)
      | none => if s.dropWhile isspace = [] then .eof else .mismatch := by
  unfold scanInt numeral
  cases hs : s.dropWhile isspace with
  | nil => rfl
  | cons c cs =>
      rw [signed]
      dsimp only
      split
      · rw [scanDigits_eq]
        cases unsigned cs <;> rfl
      · split
        · rw [scanDigits_eq]
          cases unsigned cs <;> rfl
        · rw [scanDigits_eq]
          cases unsigned (c :: cs) <;> rfl

theorem scanInt_of_begins (h : BeginsWith s n) : scanInt s = .matched (stored n) := by
  rw [scanInt_eq, beginsWith_iff.mp h]

theorem scanInt_of_spaces (h : Spaces s) : scanInt s = .eof := by
  rw [scanInt, dropWhile_nil_iff.mpr h]

theorem scanInt_of_none (h : ∀ n, ¬ BeginsWith s n) (hspaces : ¬ Spaces s) :
    scanInt s = .mismatch := by
  rw [scanInt_eq, numeral_none h]
  exact if_neg fun hnil => hspaces (dropWhile_nil_iff.mp hnil)

theorem not_begins_of_spaces (h : Spaces s) : ¬ BeginsWith s n := by
  intro hn
  have := scanInt_of_begins hn
  rw [scanInt_of_spaces h] at this
  cases this

theorem dropWhile_percent (hspaces : Spaces spaces) :
    (spaces ++ '%'.toUInt8 :: rest).dropWhile isspace = '%'.toUInt8 :: rest := by
  apply dropWhile_spaces hspaces
  intro c hc
  obtain rfl := Option.some.inj hc
  decide

/-- Behind `%` the second conversion of the source is the first one. -/
theorem scanPercentInt_percent (hspaces : Spaces spaces) :
    scanPercentInt (spaces ++ '%'.toUInt8 :: rest) = scanInt rest := by
  rw [scanPercentInt, dropWhile_percent hspaces]
  exact if_pos rfl

theorem not_begins_of_percent (hspaces : Spaces spaces) :
    ¬ BeginsWith (spaces ++ '%'.toUInt8 :: rest) n := by
  intro h
  have hnumeral := beginsWith_iff.mp h
  rw [numeral, dropWhile_percent hspaces] at hnumeral
  have hnone : signed ('%'.toUInt8 :: rest) = none := by
    rw [signed, if_neg (by decide), if_neg (by decide)]
    unfold unsigned
    rw [List.takeWhile_cons_of_neg (by decide)]
    rfl
  rw [hnone] at hnumeral
  cases hnumeral

/-- What the first `sscanf` finds in any string. -/
theorem scanInt_cases (s : List UInt8) :
    (∃ n, BeginsWith s n ∧ scanInt s = .matched (stored n)) ∨
      (∀ n, ¬ BeginsWith s n) ∧
        (Spaces s ∧ scanInt s = .eof ∨ ¬ Spaces s ∧ scanInt s = .mismatch) := by
  by_cases hn : ∃ n, BeginsWith s n
  · obtain ⟨n, hn⟩ := hn
    exact Or.inl ⟨n, hn, scanInt_of_begins hn⟩
  · have hnone : ∀ n, ¬ BeginsWith s n := not_exists.mp hn
    refine Or.inr ⟨hnone, ?_⟩
    by_cases hspaces : Spaces s
    · exact Or.inl ⟨hspaces, scanInt_of_spaces hspaces⟩
    · exact Or.inr ⟨hspaces, scanInt_of_none hnone hspaces⟩

theorem percent_unique {spaces' rest' : List UInt8} (hspaces : Spaces spaces)
    (hspaces' : Spaces spaces')
    (heq : spaces ++ '%'.toUInt8 :: rest = spaces' ++ '%'.toUInt8 :: rest') : rest = rest' := by
  have hdrop := congrArg (List.dropWhile isspace) heq
  rw [dropWhile_percent hspaces, dropWhile_percent hspaces'] at hdrop
  exact (List.cons.inj hdrop).2

/-- What the second `sscanf` finds where the first one found something else. -/
theorem scanPercentInt_cases (hspaces : ¬ Spaces s) :
    (∃ n, BeginsWithPercent s n ∧ scanPercentInt s = .matched (stored n)) ∨
      (∀ n, ¬ BeginsWithPercent s n) ∧
        (LonePercent s ∧ scanPercentInt s = .eof ∨
          ¬ LonePercent s ∧ scanPercentInt s = .mismatch) := by
  by_cases hpercent : ∃ spaces rest, s = spaces ++ '%'.toUInt8 :: rest ∧ Spaces spaces
  · obtain ⟨spaces, rest, rfl, hbefore⟩ := hpercent
    rw [scanPercentInt_percent hbefore]
    rcases scanInt_cases rest with ⟨n, hn, hscan⟩ | ⟨hnone, hscan⟩
    · exact Or.inl ⟨n, ⟨spaces, rest, rfl, hbefore, hn⟩, hscan⟩
    · refine Or.inr ⟨?_, ?_⟩
      · rintro n ⟨spaces', rest', heq, hbefore', hn⟩
        exact hnone n (percent_unique hbefore hbefore' heq ▸ hn)
      · rcases hscan with ⟨hrest, hscan⟩ | ⟨hrest, hscan⟩
        · exact Or.inl ⟨⟨spaces, rest, rfl, hbefore, hrest⟩, hscan⟩
        · refine Or.inr ⟨?_, hscan⟩
          rintro ⟨spaces', rest', heq, hbefore', hrest'⟩
          exact hrest (percent_unique hbefore hbefore' heq ▸ hrest')
  · refine Or.inr ⟨?_, Or.inr ⟨?_, ?_⟩⟩
    · rintro n ⟨spaces, rest, heq, hbefore, -⟩
      exact hpercent ⟨spaces, rest, heq, hbefore⟩
    · rintro ⟨spaces, rest, heq, hbefore, -⟩
      exact hpercent ⟨spaces, rest, heq, hbefore⟩
    · unfold scanPercentInt
      cases hs : s.dropWhile isspace with
      | nil => exact (hspaces (dropWhile_nil_iff.mp hs)).elim
      | cons c cs =>
          refine if_neg fun hc => hpercent ⟨s.takeWhile isspace, cs, ?_, takeWhile_spaces s⟩
          rw [← hc, ← hs, List.takeWhile_append_dropWhile]

end Scans

/-! ## The job that is named -/

namespace JobTable

/-- The entry is in use. -/
def Live (t : JobTable) (i : Slot) : Prop := 0 < (t.jobs i).pid

/-- `getjobpid` and `getjobjid` are this loop for `Job.pid` and `Job.jid`. -/
def lookup (t : JobTable) (field : Job → Int) (n : Int) : Option Slot :=
  if n < 1 then none else t.firstJob fun job => field job == n

/-- A live entry with the number is found, and what is found for the `int` that the
numeral leaves is such an entry. -/
structure Finds (t : JobTable) (field : Job → Int) (n : Int) : Prop where
  live : ∀ i, t.Live i → field (t.jobs i) = n → 0 < n ∧ stored n = n
  first : ∀ i, 0 < stored n → (t.firstJob fun job => field job == stored n) = some i →
    t.Live i ∧ stored n = n

end JobTable

/-- The argument names a job by its pid, or else by its jid. -/
def Names (arg : List UInt8) (job : Job) : Prop :=
  BeginsWith arg job.pid ∨ (∀ n, ¬ BeginsWith arg n) ∧ BeginsWithPercent arg job.jid

/-- The result is the one for the live job that is named, or a message where there is no
such job. -/
def BgfgResult.ActsOn (t : JobTable) (fg : Bool) (named : Job → Prop) : BgfgResult → Prop
  | .exits | .unset => False
  | .message t' printed => (∀ i, t.Live i → ¬ named (t.jobs i)) ∧ t' = t ∧ printed ≠ []
  | .background i t' _ => fg = false ∧ t.Live i ∧ named (t.jobs i) ∧ t' = t.setState i .bg
  | .foreground i t' pid =>
      fg = true ∧ t.Live i ∧ named (t.jobs i) ∧ t' = t.setState i .fg ∧ pid = (t.jobs i).pid

section Named

variable {t : JobTable} {fg : Bool} {named : Job → Prop} {field : Job → Int} {n : Int}
  {arg : List UInt8}

theorem continueJob_actsOn (i : Slot) :
    (continueJob t fg i).ActsOn t fg named ↔ t.Live i ∧ named (t.jobs i) := by
  unfold continueJob
  cases fg with
  | true => simp [BgfgResult.ActsOn]
  | false => simp [BgfgResult.ActsOn]

theorem lookup_actsOn {printed : List UInt8} (hprinted : printed ≠ []) :
    (match t.lookup field (stored n) with
      | none => BgfgResult.message t printed
      | some i => continueJob t fg i).ActsOn t fg (fun job => field job = n) ↔
      t.Finds field n := by
  cases hlookup : t.lookup field (stored n) with
  | none =>
      unfold JobTable.lookup at hlookup
      constructor
      · rintro ⟨hnone, -, -⟩
        refine ⟨fun i hlive hi => (hnone i hlive hi).elim, fun i hpos hfirst => ?_⟩
        rw [if_neg (by omega), hfirst] at hlookup
        cases hlookup
      · intro hfinds
        refine ⟨fun i hlive hi => ?_, rfl, hprinted⟩
        obtain ⟨hpos, hstored⟩ := hfinds.live i hlive hi
        rw [if_neg (by omega)] at hlookup
        have hne := JobTable.firstJob_none hlookup i
        simp [hi, hstored] at hne
  | some i =>
      unfold JobTable.lookup at hlookup
      split at hlookup
      next => cases hlookup
      next hpos =>
        have hi : field (t.jobs i) = stored n := by simpa using JobTable.firstJob_some hlookup
        refine (continueJob_actsOn i).trans ?_
        constructor
        · rintro ⟨hlive, hn⟩
          have hstored : stored n = n := hi.symm.trans hn
          refine ⟨fun _ _ _ => ⟨by omega, hstored⟩, fun j _ hfirst => ?_⟩
          obtain rfl := Option.some.inj (hlookup.symm.trans hfirst)
          exact ⟨hlive, hstored⟩
        · intro hfinds
          obtain ⟨hlive, hstored⟩ := hfinds.first i (by omega) hlookup
          exact ⟨hlive, hi.trans hstored⟩

theorem BeginsWithPercent.unique {m : Int} (hn : BeginsWithPercent arg n)
    (hm : BeginsWithPercent arg m) : n = m := by
  obtain ⟨spaces, rest, rfl, hspaces, hrest⟩ := hn
  obtain ⟨spaces', rest', heq, hspaces', hrest'⟩ := hm
  exact hrest.unique (percent_unique hspaces hspaces' heq ▸ hrest')

theorem LonePercent.not_begins (h : LonePercent arg) : ¬ BeginsWith arg n := by
  obtain ⟨spaces, rest, rfl, hspaces, -⟩ := h
  exact not_begins_of_percent hspaces

theorem BeginsWithPercent.not_begins {m : Int} (h : BeginsWithPercent arg m) :
    ¬ BeginsWith arg n := by
  obtain ⟨spaces, rest, rfl, hspaces, -⟩ := h
  exact not_begins_of_percent hspaces

theorem BeginsWithPercent.not_lone (h : BeginsWithPercent arg n) : ¬ LonePercent arg := by
  obtain ⟨spaces, rest, rfl, hspaces, hrest⟩ := h
  rintro ⟨spaces', rest', heq, hspaces', hblank⟩
  exact not_begins_of_spaces hblank (percent_unique hspaces hspaces' heq ▸ hrest)

theorem BeginsWithPercent.not_spaces (h : BeginsWithPercent arg n) : ¬ Spaces arg := by
  obtain ⟨spaces, rest, rfl, -, -⟩ := h
  intro hspaces
  have hpercent := hspaces '%'.toUInt8 (by simp)
  revert hpercent
  decide

theorem names_pid (h : BeginsWith arg n) (job : Job) : Names arg job ↔ job.pid = n := by
  constructor
  · rintro (hpid | ⟨hnone, -⟩)
    · exact hpid.unique h
    · exact (hnone n h).elim
  · rintro rfl
    exact Or.inl h

theorem names_jid (h : BeginsWithPercent arg n) (job : Job) : Names arg job ↔ job.jid = n := by
  constructor
  · rintro (hpid | ⟨-, hjid⟩)
    · exact (h.not_begins hpid).elim
    · exact hjid.unique h
  · rintro rfl
    exact Or.inr ⟨fun _ => h.not_begins, h⟩

/-- Something other than white space stands in the argument, it is no lone `%`, and its
number leads to the live job with that number. -/
structure WellNamed (t : JobTable) (arg : List UInt8) : Prop where
  spaces : ¬ Spaces arg
  percent : ¬ LonePercent arg
  pid : ∀ n, BeginsWith arg n → t.Finds Job.pid n
  jid : ∀ n, BeginsWithPercent arg n → t.Finds Job.jid n

theorem wellNamed_pid_iff (h : BeginsWith arg n) : WellNamed t arg ↔ t.Finds Job.pid n := by
  refine ⟨fun hnamed => hnamed.pid n h, fun hfinds => ⟨?_, ?_, ?_, ?_⟩⟩
  · exact fun hspaces => not_begins_of_spaces hspaces h
  · exact fun hlone => hlone.not_begins h
  · intro m hm
    exact hm.unique h ▸ hfinds
  · exact fun m hm => (hm.not_begins h).elim

theorem wellNamed_jid_iff (h : BeginsWithPercent arg n) :
    WellNamed t arg ↔ t.Finds Job.jid n := by
  refine ⟨fun hnamed => hnamed.jid n h, fun hfinds => ⟨h.not_spaces, h.not_lone, ?_, ?_⟩⟩
  · exact fun m hm => (h.not_begins hm).elim
  · intro m hm
    exact hm.unique h ▸ hfinds

end Named

theorem finds_pid {t : JobTable} {n : Int} (hfits : stored n = n) : t.Finds Job.pid n where
  live i hlive hi := ⟨hi ▸ hlive, hfits⟩
  first i hpos hfirst := by
    have hi : (t.jobs i).pid = stored n := by simpa using JobTable.firstJob_some hfirst
    refine ⟨?_, hfits⟩
    unfold JobTable.Live
    omega

/-- So does a jid in a table whose entries in use are those with a positive jid. -/
theorem finds_jid {t : JobTable} {n : Int} (hfits : stored n = n)
    (hjids : ∀ i, t.Live i ↔ 0 < (t.jobs i).jid) : t.Finds Job.jid n where
  live i hlive hi := ⟨hi ▸ (hjids i).mp hlive, hfits⟩
  first i hpos hfirst := by
    have hi : (t.jobs i).jid = stored n := by simpa using JobTable.firstJob_some hfirst
    exact ⟨(hjids i).mpr (hi ▸ hpos), hfits⟩

/-- In such a table only white space, a lone `%` and numbers beyond an `int` are not well
named. -/
theorem wellNamed_of_fits {t : JobTable} {arg : List UInt8}
    (hjids : ∀ i, t.Live i ↔ 0 < (t.jobs i).jid) (hspaces : ¬ Spaces arg)
    (hpercent : ¬ LonePercent arg)
    (hfits : ∀ n, BeginsWith arg n ∨ BeginsWithPercent arg n → -2 ^ 31 ≤ n ∧ n < 2 ^ 31) :
    WellNamed t arg where
  spaces := hspaces
  percent := hpercent
  pid n hn := finds_pid (stored_eq_iff.mpr (hfits n (Or.inl hn)))
  jid n hn := finds_jid (stored_eq_iff.mpr (hfits n (Or.inr hn))) hjids

/-- For every table and every argument, `bg` and `fg` act on the job that is named, or
print a message and change nothing, exactly where the argument is well named. -/
theorem doBgfg_actsOn_iff (t : JobTable) (fg : Bool) (arg : List UInt8) :
    (doBgfg t fg (some arg)).ActsOn t fg (Names arg) ↔ WellNamed t arg := by
  unfold doBgfg
  dsimp only
  rcases scanInt_cases arg with ⟨n, hn, hscan⟩ | ⟨hnone, ⟨hspaces, hscan⟩ | ⟨hspaces, hscan⟩⟩
  · have hnames : Names arg = fun job => job.pid = n := funext fun job => propext (names_pid hn job)
    rw [hscan, hnames, wellNamed_pid_iff hn]
    exact lookup_actsOn (by simp [ascii])
  · rw [hscan]
    exact iff_of_false id fun hnamed => hnamed.spaces hspaces
  · rw [hscan]
    rcases scanPercentInt_cases hspaces with
      ⟨n, hn, hscan⟩ | ⟨hjid, ⟨hlone, hscan⟩ | ⟨hlone, hscan⟩⟩
    · have hnames : Names arg = fun job => job.jid = n :=
        funext fun job => propext (names_jid hn job)
      rw [hscan, hnames, wellNamed_jid_iff hn]
      exact lookup_actsOn (by simp [ascii])
    · rw [hscan]
      exact iff_of_false id fun hnamed => hnamed.percent hlone
    · -- neither kind of name: the message about the argument
      rw [hscan]
      refine iff_of_true ⟨fun i _ => ?_, rfl, by simp [ascii]⟩
        ⟨hspaces, hlone, fun n hn => (hnone n hn).elim, fun n hn => (hjid n hn).elim⟩
      rintro (hpid | ⟨-, hpercent⟩)
      · exact hnone _ hpid
      · exact hjid _ hpercent

/-- `fg ''` ends the shell. -/
theorem exists_not_actsOn :
    ¬ ∀ t fg arg, (doBgfg t fg (some arg)).ActsOn t fg (Names arg) := by
  intro h
  exact h ⟨fun _ => ⟨0, 0, .undef, []⟩, 1⟩ true []

/-! ## The command among the statements of the shell -/

section Steps

variable (mask : List Signal) {s : State} {fg : Bool} {arg : List UInt8}

/-- The shell where `do_bgfg` has returned, or calls `waitfg`. -/
def BgfgResult.after (s : State) : BgfgResult → State
  | .exits => { s with pc := .halted }
  | .unset => s
  | .message t _ | .background _ t _ => { s with table := t, pc := .prompt }
  | .foreground _ t pid => { s with table := t, pc := .waitLookup pid }

theorem doBgfg_target (t : JobTable) (unset : Int) (hset : doBgfg t fg (some arg) ≠ .unset) :
    match bgfgTarget t arg unset with
    | .exits => doBgfg t fg (some arg) = .exits
    | .returns => ∃ printed, doBgfg t fg (some arg) = .message t printed
    | .job i => doBgfg t fg (some arg) = continueJob t fg i := by
  revert hset
  unfold doBgfg bgfgTarget
  dsimp only
  cases scanInt arg with
  | eof => exact fun _ => rfl
  | matched pid =>
      dsimp only
      intro
      cases t.getjobpid pid with
      | none => exact ⟨_, rfl⟩
      | some i => rfl
  | mismatch =>
      dsimp only
      cases scanPercentInt arg with
      | eof => exact fun hset => (hset rfl).elim
      | mismatch => exact fun _ => ⟨_, rfl⟩
      | matched jid =>
          dsimp only
          intro
          cases t.getjobjid jid with
          | none => exact ⟨_, rfl⟩
          | some i => rfl

theorem evalLine_bgfg (s : State) (fg : Bool) (arg : List UInt8) (bg : Bool)
    (cmdline : List UInt8) (unset : Int) :
    s.evalLine [bgfgName fg, arg] bg cmdline unset =
      match bgfgTarget s.table arg unset with
      | .exits => .halted
      | .returns => .prompt
      | .job i => .bgfgKill fg i := by
  cases fg <;> rfl

/-- With no handler in between, the statements of the main thread are the command. -/
theorem run_bgfg (hin : s.inHandler = false) (hpc : s.pc = .prompt)
    (hset : doBgfg s.table fg (some arg) ≠ .unset) (bg : Bool) (cmdline : List UInt8)
    (unset : Int) :
    ∃ es, (shellMasking mask).run s (.line [bgfgName fg, arg] bg cmdline unset :: es) =
      some ((doBgfg s.table fg (some arg)).after s) := by
  have hline : (shellMasking mask).step s (.line [bgfgName fg, arg] bg cmdline unset) =
      some { s with pc := s.evalLine [bgfgName fg, arg] bg cmdline unset } :=
    if_pos ⟨hpc, hin⟩
  have htarget := doBgfg_target s.table unset hset
  rw [evalLine_bgfg] at hline
  cases hjob : bgfgTarget s.table arg unset with
  | exits =>
      rw [hjob] at hline htarget
      exact ⟨[], by rw [System.run_cons, hline, htarget]; rfl⟩
  | returns =>
      rw [hjob] at hline htarget
      obtain ⟨printed, hresult⟩ := htarget
      exact ⟨[], by rw [System.run_cons, hline, hresult]; rfl⟩
  | job i =>
      rw [hjob] at hline htarget
      refine ⟨[.kill true, .main, .main], ?_⟩
      rw [System.run_cons, hline, htarget]
      cases fg with
      | true =>
          simp [shellMasking, State.step, hin, State.killStep, State.mainStep, continueJob,
            BgfgResult.after]
      | false =>
          simp [shellMasking, State.step, hin, State.killStep, State.mainStep, continueJob,
            BgfgResult.after]

end Steps

end CompOrg.Shell
