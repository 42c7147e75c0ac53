import CompOrg.Shell.Parseline

/-! # The read/eval loop of `main`

The loop reads with `fgets` into `cmdline`, which has `MAXLINE` bytes, and leaves when
the end of the input was met. Of `eval` only the call of `parseline` is modelled, and
every evaluation returns. What is on the stack where `argv` comes to lie is arbitrary.
-/

namespace CompOrg.Shell

open QuotedWords

/-- `fgets(cmdline, n + 1, stdin)`: what is read, what is left, and `feof(stdin)`. -/
def fgets : Nat → List UInt8 → List UInt8 × List UInt8 × Bool
  | 0, stdin => ([], stdin, false)
  | _ + 1, [] => ([], [], true)
  | n + 1, c :: stdin =>
      if c = newline then ([c], stdin, false)
      else
        let (cmdline, rest, eof) := fgets n stdin
        (c :: cmdline, rest, eof)

/-- An evaluation: its line, the copy before it is cut up, what the tokenising loop
finds, and what `parseline` returns. -/
structure Call where
  cmdline : List UInt8
  copy : List UInt8
  tokens : Parse
  result : Int × Parse

def eval (cmdline array : List UInt8) (argv : Nat → Option Nat) : Option Call :=
  (tokenize cmdline array argv).map fun tokens =>
    ⟨cmdline, (copyLine cmdline array).1, tokens, background tokens⟩

/-- `while (1)`, where an iteration finds `stack fuel` in `argv`. -/
def mainLoop (stack : Nat → Nat → Option Nat) :
    Nat → List UInt8 → List UInt8 → Option (List Call)
  | 0, _, _ => none
  | fuel + 1, stdin, array =>
      match fgets (MAXLINE - 1) stdin with
      | (_, _, true) => some []
      | (cmdline, rest, false) => do
          let call ← eval cmdline array (stack fuel)
          let calls ← mainLoop stack fuel rest call.result.2.array
          return call :: calls

/-! ## Lines -/

/-- The lines of a stream, each with its newline; the last one may be without. -/
def lines : List UInt8 → List (List UInt8)
  | [] => []
  | c :: s =>
      if c = newline then [c] :: lines s
      else
        match lines s with
        | [] => [[c]]
        | line :: more => (c :: line) :: more

section Lines

variable {body rest s : List UInt8} {n : Nat}

theorem lines_newline (hbody : newline ∉ body) :
    lines (body ++ newline :: rest) = (body ++ [newline]) :: lines rest := by
  induction body with
  | nil => simp [lines]
  | cons c body ih =>
      rw [List.mem_cons, not_or] at hbody
      simp [lines, Ne.symm hbody.1, ih hbody.2]

theorem lines_end (hs : newline ∉ s) (hne : s ≠ []) : lines s = [s] := by
  induction s with
  | nil => exact (hne rfl).elim
  | cons c s ih =>
      rw [List.mem_cons, not_or] at hs
      cases s with
      | nil => simp [lines, Ne.symm hs.1]
      | cons d s => rw [lines, if_neg (Ne.symm hs.1), ih hs.2 (by simp)]

theorem fgets_line (hbody : newline ∉ body) (hn : body.length < n) :
    fgets n (body ++ newline :: rest) = (body ++ [newline], rest, false) := by
  induction body generalizing n with
  | nil =>
      obtain ⟨n, rfl⟩ := Nat.exists_eq_add_one_of_ne_zero (Nat.ne_of_gt hn)
      simp [fgets]
  | cons c body ih =>
      rw [List.mem_cons, not_or] at hbody
      obtain ⟨n, rfl⟩ := Nat.exists_eq_add_one_of_ne_zero (Nat.ne_of_gt (Nat.zero_lt_of_lt hn))
      simp [fgets, Ne.symm hbody.1, ih hbody.2 (by simpa using hn)]

theorem fgets_full (rest : List UInt8) (hs : newline ∉ s) :
    fgets s.length (s ++ rest) = (s, rest, false) := by
  induction s with
  | nil => rfl
  | cons c s ih =>
      rw [List.mem_cons, not_or] at hs
      simp [fgets, Ne.symm hs.1, ih hs.2]

theorem fgets_end (hs : newline ∉ s) (hn : s.length < n) : fgets n s = (s, [], true) := by
  induction s generalizing n with
  | nil =>
      obtain ⟨n, rfl⟩ := Nat.exists_eq_add_one_of_ne_zero (Nat.ne_of_gt hn)
      rfl
  | cons c s ih =>
      rw [List.mem_cons, not_or] at hs
      obtain ⟨n, rfl⟩ := Nat.exists_eq_add_one_of_ne_zero (Nat.ne_of_gt (Nat.zero_lt_of_lt hn))
      simp [fgets, Ne.symm hs.1, ih hs.2 (by simpa using hn)]

end Lines

/-! ## Evaluating every line -/

def chomp (line : List UInt8) : List UInt8 := line.takeWhile fun c => c != newline

/-- The call evaluates the whole line, with nothing but the newline replaced. -/
structure Evaluated (line : List UInt8) (call : Call) : Prop where
  whole : call.cmdline = line
  kept : cString call.copy = line.map fun c => if c = newline then space else c
  words : call.tokens.Filled ((words space quote (chomp line)).map Word.text)
  inBounds : call.tokens.InBounds

/-- The calls are those of the lines, one by one. -/
def EvaluatesLines (stack : Nat → Nat → Option Nat) (stdin array : List UInt8) : Prop :=
  ∃ calls, mainLoop stack (stdin.length + 1) stdin array = some calls ∧
    List.Forall₂ Evaluated (lines stdin) calls

/-- The line fits the buffer and `argv`, and ends in a newline, or fills the buffer and
ends in a space. -/
def Evaluable (line : List UInt8) : Prop :=
  line.length < MAXLINE ∧ (words space quote (chomp line)).length < MAXARGS ∧
    (line.getLast? = some newline ∨
      line.length = MAXLINE - 1 ∧ line.getLast? = some space)

section Evaluated

variable {line body stdin array : List UInt8} {argv : Nat → Option Nat} {call : Call}

theorem eval_spec (h0 : 0 ∉ line) (array : List UInt8) (argv : Nat → Option Nat) :
    ∃ call, eval line array argv = some call ∧ call.cmdline = line ∧
      cString call.copy = spaced line ∧ Tokenized line call.tokens := by
  obtain ⟨tokens, hrun, htokens⟩ := tokenize_spec line array argv
  refine ⟨_, by rw [eval, hrun]; rfl, rfl, ?_, htokens⟩
  rw [copyLine_array, cString_eq (spaced_notMem line), cString_of_notMem h0]

theorem eval_cmdline (hcall : eval line array argv = some call) : call.cmdline = line := by
  obtain ⟨tokens, -, rfl⟩ := Option.map_eq_some_iff.mp hcall
  rfl

theorem map_of_notMem (hs : newline ∉ line) :
    (line.map fun c => if c = newline then space else c) = line := by
  have hid : ∀ c ∈ line, (if c = newline then space else c) = c := by
    intro c hc
    have hne : c ≠ newline := by
      intro h
      exact hs (h ▸ hc)
    exact if_neg hne
  rw [List.map_congr_left hid, List.map_id']

theorem chomp_of_notMem (hs : newline ∉ line) : chomp line = line :=
  List.takeWhile_eq_self_iff.mpr (bne_of_notMem hs)

theorem chomp_newline (hbody : newline ∉ body) : chomp (body ++ [newline]) = body := by
  rw [chomp, List.takeWhile_append_of_pos (bne_of_notMem hbody)]
  simp

theorem spaced_eq_iff (hne : line ≠ []) : spaced line = line ↔ line.getLast? = some space := by
  rw [spaced, if_neg hne]
  constructor
  · intro h
    rw [← h, List.getLast?_concat]
  · intro h
    exact List.dropLast_append_getLast? _ h

/-- A line with its newline is kept as it is, so only the bounds remain. -/
theorem evaluated_newline_iff (hbody : newline ∉ body) (h0 : 0 ∉ body ++ [newline])
    (hcall : eval (body ++ [newline]) array argv = some call) :
    Evaluated (body ++ [newline]) call ↔ Evaluable (body ++ [newline]) := by
  obtain ⟨call', hcall', hcmdline, hcopy, htokens⟩ := eval_spec h0 array argv
  cases hcall.symm.trans hcall'
  have hwords : lineWords (body ++ [newline]) = words space quote (chomp (body ++ [newline])) := by
    rw [lineWords, cString_of_notMem h0, chomp_newline hbody, List.dropLast_concat]
  have hin := htokens.inBounds
  rw [cString_of_notMem h0, hwords] at hin
  constructor
  · intro h
    obtain ⟨-, hline, hargs⟩ := hin.mp h.inBounds
    exact ⟨hline, hargs, Or.inl (by simp)⟩
  · rintro ⟨hline, hargs, -⟩
    refine ⟨hcmdline, ?_, hwords ▸ htokens.filled, hin.mpr ⟨by simp, hline, hargs⟩⟩
    rw [hcopy, List.map_append, map_of_notMem hbody]
    simp [spaced]

/-- A line that fills the buffer loses its last character. -/
theorem evaluated_full_iff (hs : newline ∉ line) (h0 : 0 ∉ line)
    (hlen : line.length = MAXLINE - 1) (hcall : eval line array argv = some call) :
    Evaluated line call ↔ Evaluable line := by
  obtain ⟨call', hcall', hcmdline, hcopy, htokens⟩ := eval_spec h0 array argv
  cases hcall.symm.trans hcall'
  have hne : line ≠ [] := List.length_pos_iff.mp (by rw [hlen]; decide)
  have hin := htokens.inBounds
  rw [cString_of_notMem h0] at hin
  have hlast := spaced_eq_iff hne
  have hwords (h : line.getLast? = some space) :
      lineWords line = words space quote (chomp line) := by
    have hline := List.dropLast_append_getLast? _ h
    rw [lineWords, cString_of_notMem h0, chomp_of_notMem hs, ← words_append_sep quote_ne_space,
      hline]
  constructor
  · intro h
    have hkept := h.kept
    rw [hcopy, map_of_notMem hs] at hkept
    have hspace := hlast.mp hkept
    obtain ⟨-, hline, hargs⟩ := hin.mp h.inBounds
    exact ⟨hline, hwords hspace ▸ hargs, Or.inr ⟨hlen, hspace⟩⟩
  · rintro ⟨hline, hargs, hend | ⟨-, hspace⟩⟩
    · exact (hs (List.mem_of_getLast? hend)).elim
    · refine ⟨hcmdline, ?_, hwords hspace ▸ htokens.filled, hin.mpr ⟨?_, hline, ?_⟩⟩
      · rw [hcopy, map_of_notMem hs, hlast.mpr hspace]
      · exact List.length_pos_iff.mpr hne
      · rwa [hwords hspace]

variable {stack : Nat → Nat → Option Nat} {fuel : Nat} {cmdline rest : List UInt8}
  {more : List (List UInt8)}

theorem mainLoop_cons_iff (hread : fgets (MAXLINE - 1) stdin = (cmdline, rest, false)) :
    (∃ calls, mainLoop stack (fuel + 1) stdin array = some calls ∧
        List.Forall₂ Evaluated (line :: more) calls) ↔
      ∃ call, eval cmdline array (stack fuel) = some call ∧ Evaluated line call ∧
        ∃ calls, mainLoop stack fuel rest call.result.2.array = some calls ∧
          List.Forall₂ Evaluated more calls := by
  simp only [mainLoop, hread]
  constructor
  · rintro ⟨calls, hrun, hall⟩
    obtain ⟨call, hcall, hrest⟩ := Option.bind_eq_some_iff.mp hrun
    obtain ⟨calls', hcalls, hret⟩ := Option.bind_eq_some_iff.mp hrest
    cases hret
    obtain ⟨hline, hmore⟩ := List.forall₂_cons.mp hall
    exact ⟨call, hcall, hline, calls', hcalls, hmore⟩
  · rintro ⟨call, hcall, hline, calls, hcalls, hmore⟩
    refine ⟨call :: calls, ?_, List.forall₂_cons.mpr ⟨hline, hmore⟩⟩
    simp [hcall, hcalls]

/-- An iteration that reads another string than the line does not evaluate it. -/
theorem not_evaluated_of_ne (hread : fgets (MAXLINE - 1) stdin = (cmdline, rest, false))
    (hne : cmdline ≠ line) :
    ¬ ∃ calls, mainLoop stack (fuel + 1) stdin array = some calls ∧
      List.Forall₂ Evaluated (line :: more) calls := by
  rw [mainLoop_cons_iff hread]
  rintro ⟨call, hcall, hline, -⟩
  exact hne ((eval_cmdline hcall).symm.trans hline.whole)

theorem fgets_take (rest : List UInt8) (hs : newline ∉ body.take (MAXLINE - 1))
    (hlen : MAXLINE - 1 ≤ body.length) :
    fgets (MAXLINE - 1) (body ++ rest) =
      (body.take (MAXLINE - 1), body.drop (MAXLINE - 1) ++ rest, false) := by
  have htake : (body.take (MAXLINE - 1)).length = MAXLINE - 1 := List.length_take_of_le hlen
  have := fgets_full (body.drop (MAXLINE - 1) ++ rest) hs
  rwa [htake, ← List.append_assoc, List.take_append_drop] at this

/-- An iteration that reads the whole line evaluates it if the line can be. -/
theorem mainLoop_line_iff {Rest : Prop}
    (hread : fgets (MAXLINE - 1) stdin = (line, rest, false)) (h0 : 0 ∉ line)
    (hline : ∀ call, eval line array (stack fuel) = some call →
      (Evaluated line call ↔ Evaluable line))
    (hrest : ∀ array, (∃ calls, mainLoop stack fuel rest array = some calls ∧
      List.Forall₂ Evaluated more calls) ↔ Rest) :
    (∃ calls, mainLoop stack (fuel + 1) stdin array = some calls ∧
      List.Forall₂ Evaluated (line :: more) calls) ↔ Evaluable line ∧ Rest := by
  rw [mainLoop_cons_iff hread]
  constructor
  · rintro ⟨call, hcall, heval, hmore⟩
    exact ⟨(hline call hcall).mp heval, (hrest _).mp hmore⟩
  · rintro ⟨heval, hmore⟩
    obtain ⟨call, hcall, -⟩ := eval_spec h0 array (stack fuel)
    exact ⟨call, hcall, (hline call hcall).mpr heval, (hrest _).mpr hmore⟩

theorem mainLoop_nil : mainLoop stack (fuel + 1) [] array = some [] := by
  rw [mainLoop, fgets_end List.not_mem_nil (by decide)]

theorem mainLoop_last_iff (hnewline : newline ∉ stdin) (h0 : 0 ∉ stdin)
    (hfuel : stdin.length ≤ fuel) :
    (∃ calls, mainLoop stack (fuel + 1) stdin array = some calls ∧
      List.Forall₂ Evaluated (lines stdin) calls) ↔ ∀ line ∈ lines stdin, Evaluable line := by
  have hpos : 0 < MAXLINE - 1 := by decide
  by_cases hne : stdin = []
  · rw [hne]
    simp [mainLoop_nil, lines]
  rw [lines_end hnewline hne, List.forall_mem_singleton]
  by_cases hfull : stdin.length = MAXLINE - 1
  · obtain ⟨fuel, rfl⟩ := Nat.exists_eq_add_one_of_ne_zero (show fuel ≠ 0 by omega)
    have hread := fgets_full [] hnewline
    rw [hfull, List.append_nil] at hread
    have hend : ∀ array, (∃ calls, mainLoop stack (fuel + 1) [] array = some calls ∧
        List.Forall₂ Evaluated [] calls) ↔ True := by simp [mainLoop_nil]
    rw [mainLoop_line_iff hread h0
      (fun call hcall => evaluated_full_iff hnewline h0 hfull hcall) hend, and_true]
  · have hlong : ¬ Evaluable stdin := by
      rintro ⟨hline, -, hend | ⟨hlen, -⟩⟩
      · exact hnewline (List.mem_of_getLast? hend)
      · exact hfull hlen
    refine iff_of_false ?_ hlong
    by_cases hlen : stdin.length < MAXLINE - 1
    · -- the end of the input is met before the buffer is full
      have hrun : mainLoop stack (fuel + 1) stdin array = some [] := by
        rw [mainLoop, fgets_end hnewline hlen]
      rw [hrun]
      rintro ⟨calls, hcalls, hall⟩
      cases hcalls
      cases hall
    · have hread := fgets_take [] (fun h => hnewline (List.mem_of_mem_take h))
        (Nat.le_of_not_lt hlen)
      rw [List.append_nil, List.append_nil] at hread
      apply not_evaluated_of_ne hread
      intro h
      have := congrArg List.length h
      simp only [List.length_take] at this
      omega

/-- The loop over the lines that remain, by induction on the fuel. -/
theorem mainLoop_iff (h0 : 0 ∉ stdin) (hfuel : stdin.length < fuel) :
    (∃ calls, mainLoop stack fuel stdin array = some calls ∧
      List.Forall₂ Evaluated (lines stdin) calls) ↔ ∀ line ∈ lines stdin, Evaluable line := by
  induction fuel generalizing stdin array with
  | zero => omega
  | succ fuel ih =>
      by_cases hnewline : newline ∈ stdin
      · obtain ⟨body, rest, rfl, hbody⟩ := List.eq_append_cons_of_mem hnewline
        have hsplit : body ++ newline :: rest = body ++ [newline] ++ rest := by simp
        rw [lines_newline hbody, List.forall_mem_cons]
        by_cases hlen : body.length < MAXLINE - 1
        · have h0' : 0 ∉ body ++ [newline] ∧ 0 ∉ rest := by
            rwa [hsplit, List.mem_append, not_or] at h0
          have hfuel' : rest.length < fuel := by
            simp only [List.length_append, List.length_cons] at hfuel
            omega
          exact mainLoop_line_iff (fgets_line hbody hlen) h0'.1
            (fun call hcall => evaluated_newline_iff hbody h0'.1 hcall)
            fun array => ih h0'.2 hfuel'
        · have hread := fgets_take (newline :: rest)
            (fun h => hbody (List.mem_of_mem_take h)) (Nat.le_of_not_lt hlen)
          have hne : body.take (MAXLINE - 1) ≠ body ++ [newline] := by
            intro h
            have := congrArg List.length h
            simp only [List.length_take, List.length_append, List.length_singleton] at this
            omega
          refine iff_of_false (not_evaluated_of_ne hread hne) ?_
          rintro ⟨⟨hline, -⟩, -⟩
          simp only [List.length_append, List.length_singleton] at hline
          omega
      · exact mainLoop_last_iff hnewline h0 (Nat.le_of_lt_succ hfuel)

/-- Every line is evaluated once as a whole if each of them can be. -/
theorem evaluatesLines_iff (h0 : 0 ∉ stdin) (stack : Nat → Nat → Option Nat)
    (array : List UInt8) :
    EvaluatesLines stack stdin array ↔ ∀ line ∈ lines stdin, Evaluable line :=
  mainLoop_iff h0 (Nat.lt_succ_self _)

end Evaluated

/-- Two lines: `a` and a blank one. -/
theorem evaluatesLines_iff_two :
    EvaluatesLines (fun _ _ => none) [97, 10, 10] [] ↔
      ∀ line ∈ lines [97, 10, 10], Evaluable line :=
  evaluatesLines_iff (by decide) (fun _ _ => none) []

/-- A last line without a newline is not evaluated. -/
theorem last_line_dropped :
    lines [113, 117, 105, 116] = [[113, 117, 105, 116]] ∧
      mainLoop (fun _ _ => none) 5 [113, 117, 105, 116] (List.replicate MAXLINE 0) = some [] ∧
      ¬ EvaluatesLines (fun _ _ => none) [113, 117, 105, 116] (List.replicate MAXLINE 0) := by
  have hrun : mainLoop (fun _ _ => none) 5 [113, 117, 105, 116] (List.replicate MAXLINE 0) =
      some [] := rfl
  have hlines : lines [113, 117, 105, 116] = [[113, 117, 105, 116]] := by decide
  refine ⟨hlines, hrun, ?_⟩
  rintro ⟨calls, hcalls, hall⟩
  cases hrun.symm.trans hcalls
  rw [hlines] at hall
  cases hall

end CompOrg.Shell
