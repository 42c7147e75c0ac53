import CompOrg.Shell.Parseline

/-! # Command lines

What `parseline` makes of a line that is written out of arguments, when its stores
stay inside `array` and `argv`, and when its answer is that of the last word.
-/

namespace CompOrg.Shell

open QuotedWords

/-! ## Lines that are written out of arguments -/

def written (w : Word UInt8) : List UInt8 :=
  if w.quoted then quote :: (w.text ++ [quote]) else w.text

def Writable (w : Word UInt8) : Prop :=
  if w.quoted then ∀ c ∈ w.text, c ≠ quote ∧ c ≠ 0 ∧ c ≠ newline
  else w.text ≠ [] ∧ w.text.head? ≠ some quote ∧ ∀ c ∈ w.text, c ≠ space ∧ c ≠ 0 ∧ c ≠ newline

instance : DecidablePred Writable := fun w => inferInstanceAs (Decidable (
  if w.quoted then ∀ c ∈ w.text, c ≠ quote ∧ c ≠ 0 ∧ c ≠ newline
  else w.text ≠ [] ∧ w.text.head? ≠ some quote ∧
    ∀ c ∈ w.text, c ≠ space ∧ c ≠ 0 ∧ c ≠ newline))

/-- The arguments with one or more spaces between them. -/
inductive Joined : List (Word UInt8) → List UInt8 → Prop
  | single (w) : Joined [w] (written w)
  | cons {ws s} (w) (n : Nat) (h : Joined ws s) :
      Joined (w :: ws) (written w ++ (List.replicate (n + 1) space ++ s))

/-- A line with the arguments, with spaces around them and the newline. -/
structure CommandLine (args : List (Word UInt8)) (line : List UInt8) : Prop where
  writable : ∀ w ∈ args, Writable w
  form : ∃ s m n, Joined args s ∧
    line = List.replicate m space ++ (s ++ List.replicate n space) ++ [newline]
  fits : line.length < MAXLINE

def amp : Word UInt8 := ⟨false, [ampersand]⟩

section CommandLine

variable {args ws : List (Word UInt8)} {w : Word UInt8} {line s : List UInt8}

theorem Writable.bare {text : List UInt8} (h : Writable ⟨false, text⟩) :
    ∃ c cs, text = c :: cs ∧ c ≠ quote ∧ space ∉ c :: cs := by
  simp only [Writable, Bool.false_eq_true, if_false] at h
  obtain ⟨hne, hquote, hchars⟩ := h
  cases text with
  | nil => exact (hne rfl).elim
  | cons c cs => exact ⟨c, cs, rfl, by simpa using hquote, fun hmem => (hchars _ hmem).1 rfl⟩

theorem Writable.quoted {text : List UInt8} (h : Writable ⟨true, text⟩) : quote ∉ text := by
  simp only [Writable, if_true] at h
  exact fun hmem => (h _ hmem).1 rfl

theorem Writable.notMem (h : Writable w) : 0 ∉ written w := by
  intro hmem
  unfold Writable at h
  unfold written at hmem
  split at hmem
  next hq =>
    rw [if_pos hq] at h
    rcases List.mem_cons.mp hmem with heq | hmem
    · cases heq
    · rcases List.mem_append.mp hmem with hmem | hmem
      · exact (h _ hmem).2.1 rfl
      · cases List.mem_singleton.mp hmem
  next hq =>
    rw [if_neg hq] at h
    exact (h.2.2 _ hmem).2.1 rfl

theorem Joined.notMem (hargs : ∀ w ∈ args, Writable w) (h : Joined args s) : 0 ∉ s := by
  induction h with
  | single w => exact (hargs w List.mem_cons_self).notMem
  | cons w n h ih =>
      intro hmem
      rcases List.mem_append.mp hmem with hmem | hmem
      · exact (hargs w List.mem_cons_self).notMem hmem
      · rcases List.mem_append.mp hmem with hmem | hmem
        · cases List.eq_of_mem_replicate hmem
        · exact ih (fun v hv => hargs v (List.mem_cons_of_mem _ hv)) hmem

theorem Joined.splits (hargs : ∀ w ∈ args, Writable w) (h : Joined args s) :
    Splits space quote s args := by
  induction h with
  | single w =>
      have hw := hargs w List.mem_cons_self
      obtain ⟨quoted, text⟩ := w
      cases quoted with
      | false =>
          obtain ⟨c, cs, rfl, hc, hsep⟩ := hw.bare
          exact .last hsep hc
      | true => exact .quoted hw.quoted .nil
  | @cons ws s w n h ih =>
      have hw := hargs w List.mem_cons_self
      have hrest := ih fun v hv => hargs v (List.mem_cons_of_mem _ hv)
      obtain ⟨quoted, text⟩ := w
      cases quoted with
      | false =>
          obtain ⟨c, cs, rfl, hc, hsep⟩ := hw.bare
          exact .bare hsep hc (hrest.replicate_append n)
      | true =>
          have := Splits.quoted hw.quoted (hrest.replicate_append (n + 1))
          simpa [written] using this

theorem CommandLine.notMem (h : CommandLine args line) : 0 ∉ line := by
  obtain ⟨s, m, n, hjoined, rfl⟩ := h.form
  have hs := hjoined.notMem h.writable
  simp only [List.mem_append, List.mem_replicate, List.mem_singleton, not_or]
  have hspace : 0 ≠ space := by decide
  exact ⟨⟨fun h => hspace h.2, hs, fun h => hspace h.2⟩, by decide⟩

theorem CommandLine.lineWords_eq (h : CommandLine args line) : lineWords line = args := by
  have h0 := h.notMem
  obtain ⟨s, m, n, hjoined, rfl⟩ := h.form
  rw [lineWords, cString_of_notMem h0, List.dropLast_concat]
  have hsplits := (hjoined.splits h.writable).append_replicate quote_ne_space n
  exact (hsplits.replicate_append m).words_eq quote_ne_space

theorem CommandLine.parsed (h : CommandLine args line) (hlen : args.length < MAXARGS)
    (array : List UInt8) (argv : Nat → Option Nat) :
    ∃ p, parseline line array argv = some (if args = [] ∨ Marked args then 1 else 0, p) ∧
      p.Filled (arguments args) ∧ p.InBounds := by
  obtain ⟨r, p, hrun, hparsed⟩ := parseline_spec line array argv
  have hwords := h.lineWords_eq
  have hstring := cString_of_notMem h.notMem
  have hfits := h.fits
  have hpos : 0 < line.length := by
    obtain ⟨s, m, n, -, hform⟩ := h.form
    rw [hform, List.length_append]
    exact Nat.succ_pos _
  refine ⟨p, ?_, hwords ▸ hparsed.filled, hparsed.inBounds.mpr ?_⟩
  · rw [hrun, hparsed.value, hwords]
  · rw [hstring, hwords]
    exact ⟨hpos, hfits, hlen⟩

/-- The arguments come back in order, and an ampersand as the last word is taken off. -/
theorem parseline_commandLine (array : List UInt8) (argv : Nat → Option Nat)
    (hlen : 1 ≤ args.length ∧ args.length ≤ 126) :
    (∀ line, CommandLine args line → (∀ w ∈ args.getLast?, w.text.head? ≠ some ampersand) →
      ∃ p, parseline line array argv = some (0, p) ∧ p.Filled (args.map Word.text) ∧
        p.InBounds) ∧
    (∀ line, CommandLine (args ++ [amp]) line →
      ∃ p, parseline line array argv = some (1, p) ∧ p.Filled (args.map Word.text) ∧
        p.InBounds) := by
  have hne : args ≠ [] := List.length_pos_iff.mp hlen.1
  constructor
  · intro line hline hlast
    have hmarked : ¬ Marked args := by
      intro h
      obtain ⟨w, hw, hhead⟩ := Option.bind_eq_some_iff.mp h
      exact hlast w hw hhead
    have hmax : args.length < MAXARGS := Nat.lt_of_le_of_lt hlen.2 (by decide)
    obtain ⟨p, hrun, hfilled, hin⟩ := hline.parsed hmax array argv
    rw [if_neg (not_or.mpr ⟨hne, hmarked⟩)] at hrun
    rw [arguments, if_neg hmarked] at hfilled
    exact ⟨p, hrun, hfilled, hin⟩
  · intro line hline
    have hmarked : Marked (args ++ [amp]) := by simp [Marked, amp]
    have hmax : (args ++ [amp]).length < MAXARGS := by
      rw [List.length_append]
      exact Nat.lt_of_le_of_lt (Nat.add_le_add_right hlen.2 1) (by decide)
    obtain ⟨p, hrun, hfilled, hin⟩ := hline.parsed hmax array argv
    rw [if_pos (Or.inr hmarked)] at hrun
    rw [arguments, if_pos hmarked, List.map_append, List.map_singleton, List.dropLast_concat]
      at hfilled
    exact ⟨p, hrun, hfilled, hin⟩

end CommandLine

/-- `a  'b '` with an ampersand behind it. -/
theorem parseline_commandLine_quoted :
    ∃ p, parseline [97, 32, 32, 39, 98, 32, 39, 32, 38, 10] [] (fun _ => none) = some (1, p) ∧
      p.Filled [[97], [98, 32]] ∧ p.InBounds :=
  (@parseline_commandLine [⟨false, [97]⟩, ⟨true, [98, 32]⟩] [] (fun _ => none) (by decide)).2 _
    { writable := by decide +kernel
      form := ⟨_, 0, 0, .cons _ 1 (.cons _ 0 (.single amp)), rfl⟩
      fits := by decide }

/-! ## Stores in bounds -/

section InBounds

variable {line : List UInt8}

theorem cString_length_pos : 0 < (cString line).length ↔ line ≠ [] ∧ line.head? ≠ some 0 := by
  cases line with
  | nil => simp [cString]
  | cons c cs =>
      by_cases hc : c = 0
      · simp [cString, hc]
      · simp [cString, hc]

/-- The stores stay inside both arrays for the lines that do not begin with a NUL and have
fewer words than `argv` has elements. -/
theorem parseline_inBounds_iff (hlen : 1 ≤ line.length ∧ line.length < MAXLINE)
    (array : List UInt8) (argv : Nat → Option Nat) :
    (∃ r p, parseline line array argv = some (r, p) ∧ p.InBounds) ↔
      line.head? ≠ some 0 ∧ (lineWords line).length < MAXARGS := by
  obtain ⟨r, p, hrun, hparsed⟩ := parseline_spec line array argv
  have hne : line ≠ [] := List.length_pos_iff.mp hlen.1
  have hstring : (cString line).length < MAXLINE :=
    Nat.lt_of_le_of_lt (List.takeWhile_prefix _).length_le hlen.2
  constructor
  · rintro ⟨r', p', hrun', hin⟩
    cases hrun.symm.trans hrun'
    obtain ⟨hpos, -, hargs⟩ := hparsed.inBounds.mp hin
    exact ⟨(cString_length_pos.mp hpos).2, hargs⟩
  · rintro ⟨hhead, hargs⟩
    exact ⟨r, p, hrun, hparsed.inBounds.mpr ⟨cString_length_pos.mpr ⟨hne, hhead⟩, hstring, hargs⟩⟩

/-- `a  'b ' c &` -/
def quotedLine : List UInt8 := [97, 32, 32, 39, 98, 32, 39, 32, 99, 32, 38, 10]

theorem parseline_inBounds_iff_quoted :
    (∃ r p, parseline quotedLine [] (fun _ => none) = some (r, p) ∧ p.InBounds) ↔
      quotedLine.head? ≠ some 0 ∧ (lineWords quotedLine).length < MAXARGS :=
  parseline_inBounds_iff (by decide) [] fun _ => none

example : (lineWords quotedLine).length = 4 := by decide +kernel

/-- As many words of one letter as `argv` has elements. -/
def crowded : List UInt8 := (List.replicate 127 [97, 32]).flatten ++ [97, 10]

/-- `argv[128] = NULL` -/
theorem parseline_crowded :
    crowded.length < MAXLINE ∧ crowded.getLast? = some newline ∧
      ¬ ∃ r p, parseline crowded (List.replicate MAXLINE 0) (fun _ => none) = some (r, p) ∧
        p.InBounds := by
  refine ⟨by decide +kernel, by decide +kernel, ?_⟩
  rintro ⟨r, p, hrun, hin⟩
  obtain ⟨r', p', hrun', hparsed⟩ :=
    parseline_spec crowded (List.replicate MAXLINE 0) fun _ => none
  cases hrun.symm.trans hrun'
  have hwords : (lineWords crowded).length = 128 := by decide +kernel
  have := (hparsed.inBounds.mp hin).2.2
  rw [hwords] at this
  exact Nat.lt_irrefl _ this

end InBounds

/-! ## The trailing ampersand -/

def RequestsBackground (ws : List (Word UInt8)) : Prop := ws.getLast? = some amp

instance (ws : List (Word UInt8)) : Decidable (RequestsBackground ws) :=
  inferInstanceAs (Decidable (_ = some amp))

/-- The answer is `1` for the trailing word `&` only, which is then the one that is left out. -/
def DecidesBackground (line array : List UInt8) (argv : Nat → Option Nat) : Prop :=
  ∃ r p, parseline line array argv = some (r, p) ∧ p.InBounds ∧
    (r = 1 ↔ RequestsBackground (lineWords line)) ∧
    p.Filled (if RequestsBackground (lineWords line) then
        ((lineWords line).map Word.text).dropLast
      else (lineWords line).map Word.text)

section Ampersand

variable {line : List UInt8} {ws : List (Word UInt8)}

theorem RequestsBackground.marked (h : RequestsBackground ws) : Marked ws := by
  rw [Marked, h]
  rfl

/-- The test of the first character is right where no other word begins with the ampersand. -/
theorem marked_iff_requestsBackground :
    (Marked ws ↔ RequestsBackground ws) ↔
      ∀ w ∈ ws.getLast?, w.text.head? = some ampersand → w = amp := by
  constructor
  · intro h w hw hhead
    have hmarked : Marked ws := by
      rw [Marked, hw]
      exact hhead
    have hlast : ws.getLast? = some amp := h.mp hmarked
    exact Option.some.inj (hw.symm.trans hlast)
  · intro h
    refine ⟨fun hmarked => ?_, RequestsBackground.marked⟩
    obtain ⟨w, hw, hhead⟩ := Option.bind_eq_some_iff.mp hmarked
    rw [RequestsBackground, hw, h w hw hhead]

/-- The answer is that of the trailing `&` for the lines that fit both arrays and whose last
word, unless it is `&`, begins with something else. -/
theorem decidesBackground_iff (h0 : 0 ∉ line) (hnewline : line.getLast? = some newline)
    (hwords : lineWords line ≠ []) (array : List UInt8) (argv : Nat → Option Nat) :
    DecidesBackground line array argv ↔
      line.length < MAXLINE ∧ (lineWords line).length < MAXARGS ∧
        ∀ w ∈ (lineWords line).getLast?, w.text.head? = some ampersand → w = amp := by
  obtain ⟨r, p, hrun, hparsed⟩ := parseline_spec line array argv
  have hvalue : r = 1 ↔ Marked (lineWords line) := by
    rw [hparsed.value]
    simp [hwords]
  have hin := hparsed.inBounds
  have hpos : 0 < line.length := List.length_pos_iff.mpr fun h => by simp [h] at hnewline
  rw [cString_of_notMem h0] at hin
  constructor
  · rintro ⟨r', p', hrun', hin', hbg, -⟩
    cases hrun.symm.trans hrun'
    obtain ⟨-, hline, hargs⟩ := hin.mp hin'
    exact ⟨hline, hargs, marked_iff_requestsBackground.mp (hvalue.symm.trans hbg)⟩
  · rintro ⟨hline, hargs, hlast⟩
    have hmarked := marked_iff_requestsBackground.mpr hlast
    refine ⟨r, p, hrun, hin.mpr ⟨hpos, hline, hargs⟩, hvalue.trans hmarked, ?_⟩
    have hfilled := hparsed.filled
    simp only [arguments, hmarked] at hfilled
    exact hfilled

/-- `a &` -/
theorem decidesBackground_iff_amp :
    DecidesBackground [97, 32, 38, 10] [] (fun _ => none) ↔
      [97, 32, 38, 10].length < MAXLINE ∧
        (lineWords [97, 32, 38, 10]).length < MAXARGS ∧
        ∀ w ∈ (lineWords [97, 32, 38, 10]).getLast?, w.text.head? = some ampersand → w = amp :=
  decidesBackground_iff (by decide) (by decide) (by decide) [] fun _ => none

/-- `a '&'`: the quoted ampersand is an argument, but it is dropped. -/
theorem quoted_ampersand_dropped :
    ¬ DecidesBackground [97, 32, 39, 38, 39, 10] (List.replicate MAXLINE 0) fun _ => none := by
  rintro ⟨r, p, hrun, -, hbg, -⟩
  obtain ⟨r', p', hrun', hparsed⟩ :=
    parseline_spec [97, 32, 39, 38, 39, 10] (List.replicate MAXLINE 0) fun _ => none
  cases hrun.symm.trans hrun'
  have hr : r = 1 := hparsed.value.trans (by decide +kernel)
  exact absurd (hbg.mp hr) (by decide +kernel)

end Ampersand

end CompOrg.Shell
