import CompOrg.Lib.QuotedWords
import CompOrg.Shell.JobTable
import Mathlib.Data.List.TakeWhile

/-! # `parseline`

The parser copies the line into a static array and cuts it into strings in place, by
writing a NUL over each delimiter. An argument is a position in the array. The arrays
`array` and `argv` are unbounded here; the stores into them are recorded. What either
holds before the call is arbitrary.
-/

namespace CompOrg.Shell

open QuotedWords

abbrev MAXLINE : Nat := 1024

abbrev MAXARGS : Nat := 128

def space : UInt8 := ' '.toUInt8

def newline : UInt8 := '\n'.toUInt8

def quote : UInt8 := 39

def ampersand : UInt8 := '&'.toUInt8

inductive Write
  /-- `array[i] = ..` -/
  | array (i : Int)
  /-- `argv[i] = ..` -/
  | argv (i : Nat)
  deriving DecidableEq

def Write.InBounds : Write → Prop
  | .array i => 0 ≤ i ∧ i < MAXLINE
  | .argv i => i < MAXARGS

instance : DecidablePred Write.InBounds
  | .array i => inferInstanceAs (Decidable (0 ≤ i ∧ i < MAXLINE))
  | .argv i => inferInstanceAs (Decidable (i < MAXARGS))

structure Parse where
  array : List UInt8
  /-- Positions in `array`, or `NULL`. -/
  argv : Nat → Option Nat
  argc : Nat
  writes : List Write

/-! ## Strings -/

/-- The bytes before the first NUL. -/
def cString (s : List UInt8) : List UInt8 := s.takeWhile fun c => c != 0

def strchr (array : List UInt8) (buf : Nat) (c : UInt8) : Option Nat :=
  let s := cString (array.drop buf)
  if c ∈ s then some (buf + s.idxOf c) else none

/-- `while (*buf && (*buf == ' ')) buf++;` -/
def skipSpaces (array : List UInt8) (buf : Nat) : Nat :=
  buf + ((array.drop buf).takeWhile fun c => c == space).length

/-- Where the next argument begins, and its delimiter or `NULL`. -/
def nextArgument (array : List UInt8) (buf : Nat) : Nat × Option Nat :=
  let buf := skipSpaces array buf
  if array[buf]? = some quote then (buf + 1, strchr array (buf + 1) quote)
  else (buf, strchr array buf space)

/-! ## The routine -/

/-- `strcpy(buf, cmdline); buf[strlen(buf)-1] = ' ';` where the string is not empty. If it
is, the byte in front of the array is overwritten, which is not part of the model. -/
def copyLine (cmdline array : List UInt8) : List UInt8 × List Write :=
  let array := strcpy array (cString cmdline)
  let n := (cString array).length
  (if n = 0 then array else array.set (n - 1) space,
    .array ((n : Int) - 1) :: (List.range (n + 1)).map fun (i : Nat) => .array i)

/-- `argv[argc++] = buf; *delim = '\0';` -/
def Parse.storeArgument (p : Parse) (buf delim : Nat) : Parse where
  array := p.array.set delim 0
  argv := Function.update p.argv p.argc (some buf)
  argc := p.argc + 1
  writes := .array delim :: .argv p.argc :: p.writes

/-- `while (delim)` -/
def argLoop : Nat → Nat → Option Nat → Parse → Option Parse
  | 0, _, _, _ => none
  | _ + 1, _, none, p => some p
  | fuel + 1, buf, some delim, p =>
      let p := p.storeArgument buf delim
      let next := nextArgument p.array (delim + 1)
      argLoop fuel next.1 next.2 p

/-- `argv[i] = NULL;` -/
def Parse.storeNull (p : Parse) (i : Nat) : Parse :=
  { p with argv := Function.update p.argv i none, writes := .argv i :: p.writes }

/-- Up to `argv[argc] = NULL;` -/
def tokenize (cmdline array : List UInt8) (argv : Nat → Option Nat) : Option Parse := do
  let copy := copyLine cmdline array
  let next := nextArgument copy.1 0
  let p ← argLoop (copy.1.length + 1) next.1 next.2 ⟨copy.1, argv, 0, copy.2⟩
  return p.storeNull p.argc

/-- `*argv[i]` -/
def Parse.firstChar (p : Parse) (i : Nat) : Option UInt8 := (p.argv i).bind fun buf => p.array[buf]?

/-- The test for a background job; a blank line is one. -/
def background (p : Parse) : Int × Parse :=
  if p.argc = 0 then (1, p)
  else if p.firstChar (p.argc - 1) = some ampersand then
    (1, { p.storeNull (p.argc - 1) with argc := p.argc - 1 })
  else (0, p)

def parseline (cmdline array : List UInt8) (argv : Nat → Option Nat) : Option (Int × Parse) :=
  (tokenize cmdline array argv).map background

/-- The string that `argv[i]` points to. -/
def Parse.arg (p : Parse) (i : Nat) : Option (List UInt8) :=
  (p.argv i).map fun buf => cString (p.array.drop buf)

/-- The elements of `argv` are `args` and a `NULL`. -/
def Parse.Filled (p : Parse) (args : List (List UInt8)) : Prop :=
  ∀ i, i ≤ args.length → p.arg i = args[i]?

def Parse.InBounds (p : Parse) : Prop := ∀ w ∈ p.writes, w.InBounds

instance (p : Parse) : Decidable p.InBounds := inferInstanceAs (Decidable (∀ w ∈ p.writes, _))

/-! ## Finding an argument -/

section NextArgument

variable {array text rest s : List UInt8} {c : UInt8} {buf : Nat}

theorem quote_ne_space : quote ≠ space := by decide

theorem bne_of_notMem (h : c ∉ s) : ∀ d ∈ s, (d != c) = true := by
  intro d hd
  have hne : d ≠ c := by
    intro heq
    exact h (heq ▸ hd)
  simpa using hne

theorem cString_eq (h0 : 0 ∉ text) : cString (text ++ 0 :: rest) = text := by
  simp [cString, List.takeWhile_append_of_pos (bne_of_notMem h0)]

theorem cString_of_notMem (h0 : 0 ∉ s) : cString s = s :=
  List.takeWhile_eq_self_iff.mpr (bne_of_notMem h0)

theorem strchr_eq_some (hd : array.drop buf = text ++ c :: rest) (h0 : 0 ∉ text) (hc : c ≠ 0)
    (htext : c ∉ text) : strchr array buf c = some (buf + text.length) := by
  have hs : cString (array.drop buf) = text ++ c :: cString rest := by
    rw [hd]
    simp [cString, List.takeWhile_append_of_pos (bne_of_notMem h0), hc]
  rw [strchr, hs]
  simp [List.idxOf_append_of_notMem htext]

theorem strchr_eq_none (hd : array.drop buf = s ++ 0 :: rest) (h0 : 0 ∉ s) (hs : c ∉ s) :
    strchr array buf c = none := by
  simp [strchr, hd, cString_eq h0, hs]

theorem drop_succ (hd : array.drop buf = c :: rest) : array.drop (buf + 1) = rest := by
  rw [← List.drop_drop, hd]
  rfl

theorem getElem?_of_drop (hd : array.drop buf = c :: rest) : array[buf]? = some c := by
  rw [← List.head?_drop, hd]
  rfl

theorem nextArgument_space (hd : array.drop buf = space :: rest) :
    nextArgument array buf = nextArgument array (buf + 1) := by
  have hskip : skipSpaces array buf = skipSpaces array (buf + 1) := by
    simp only [skipSpaces, hd, drop_succ hd, List.takeWhile_cons, beq_self_eq_true, if_true,
      List.length_cons]
    omega
  simp only [nextArgument, hskip]

theorem skipSpaces_of_ne (hd : array.drop buf = c :: rest) (hc : c ≠ space) :
    skipSpaces array buf = buf := by
  simp [skipSpaces, hd, hc]

theorem nextArgument_nil (hd : array.drop buf = 0 :: rest) : (nextArgument array buf).2 = none := by
  rw [nextArgument, skipSpaces_of_ne hd (by decide), getElem?_of_drop hd, if_neg (by decide)]
  exact strchr_eq_none (s := []) hd (by simp) (by simp)

theorem nextArgument_unclosed (hd : array.drop buf = quote :: (s ++ 0 :: rest)) (h0 : 0 ∉ s)
    (hs : quote ∉ s) : (nextArgument array buf).2 = none := by
  rw [nextArgument, skipSpaces_of_ne hd quote_ne_space, getElem?_of_drop hd, if_pos rfl]
  exact strchr_eq_none (drop_succ hd) h0 hs

theorem nextArgument_quoted (hd : array.drop buf = quote :: (text ++ quote :: rest))
    (h0 : 0 ∉ text) (htext : quote ∉ text) :
    nextArgument array buf = (buf + 1, some (buf + 1 + text.length)) := by
  rw [nextArgument, skipSpaces_of_ne hd quote_ne_space, getElem?_of_drop hd, if_pos rfl,
    strchr_eq_some (drop_succ hd) h0 (by decide) htext]

theorem nextArgument_bare (hd : array.drop buf = c :: text ++ space :: rest) (h0 : 0 ∉ c :: text)
    (hc : c ≠ quote) (htext : space ∉ c :: text) :
    nextArgument array buf = (buf, some (buf + (c :: text).length)) := by
  have hspace : c ≠ space := by
    intro h
    exact htext (h ▸ List.mem_cons_self)
  rw [nextArgument, skipSpaces_of_ne hd hspace, getElem?_of_drop hd, if_neg (by simpa using hc),
    strchr_eq_some hd h0 (by decide) htext]

end NextArgument

/-! ## The loop over the arguments -/

/-- What the loop does from `p` to `p'` while it reads the words `ws` behind `done`, in a
part of the array that ends before `limit`. -/
structure Reads (p p' : Parse) (done : List UInt8) (limit : Nat) (ws : List (Word UInt8)) :
    Prop where
  argc : p'.argc = p.argc + ws.length
  before : ∃ rest, p'.array = done ++ rest
  kept : ∀ i, i < p.argc → p'.argv i = p.argv i
  arg : ∀ i, i < ws.length → p'.arg (p.argc + i) = (ws.map Word.text)[i]?
  written : ∀ w ∈ p.writes, w ∈ p'.writes
  arrayWrites : ∀ i : Int, .array i ∈ p'.writes → .array i ∈ p.writes ∨ 0 ≤ i ∧ i < limit
  argvWrites : ∀ i, .argv i ∈ p'.writes ↔ .argv i ∈ p.writes ∨ p.argc ≤ i ∧ i < p'.argc

section ArgLoop

variable {p p' : Parse} {done pre text s tail : List UInt8} {q : Bool} {limit : Nat}
  {ws : List (Word UInt8)}

theorem Reads.none {rest : List UInt8} (harray : p.array = done ++ rest) :
    Reads p p done limit [] where
  argc := rfl
  before := ⟨rest, harray⟩
  kept _ _ := rfl
  arg _ h := (Nat.not_lt_zero _ h).elim
  written _ h := h
  arrayWrites _ h := Or.inl h
  argvWrites i := by
    constructor
    · exact Or.inl
    · rintro (h | h)
      · exact h
      · omega

theorem Reads.shift {c : UInt8} (h : Reads p p' (done ++ [c]) limit ws) :
    Reads p p' done limit ws := by
  obtain ⟨rest, hrest⟩ := h.before
  exact { h with before := ⟨c :: rest, by simpa using hrest⟩ }

/-- The argument `text` behind `pre`, then those of the rest. -/
theorem Reads.cons (h0 : 0 ∉ text) (hlimit : done.length + pre.length + text.length < limit)
    (h : Reads (p.storeArgument (done.length + pre.length) (done.length + pre.length + text.length))
      p' (done ++ (pre ++ (text ++ [0]))) limit ws) :
    Reads p p' done limit (⟨q, text⟩ :: ws) where
  argc := by
    have := h.argc
    simp only [Parse.storeArgument, List.length_cons] at this ⊢
    omega
  before := by
    obtain ⟨rest, hrest⟩ := h.before
    exact ⟨pre ++ (text ++ 0 :: rest), by simpa using hrest⟩
  kept i hi := by
    rw [h.kept i (by simp [Parse.storeArgument]; omega)]
    exact Function.update_of_ne (by omega) _ _
  arg i hi := by
    cases i with
    | zero =>
        obtain ⟨rest, hrest⟩ := h.before
        have hptr : p'.argv p.argc = some (done.length + pre.length) := by
          rw [h.kept p.argc (by simp [Parse.storeArgument])]
          exact Function.update_self _ _ _
        have hstring : p'.array.drop (done.length + pre.length) = text ++ 0 :: rest := by
          have happ : p'.array = done ++ pre ++ (text ++ 0 :: rest) := by simpa using hrest
          rw [happ, ← List.length_append, List.drop_left]
        simp [Parse.arg, hptr, hstring, cString_eq h0]
    | succ i =>
        have := h.arg i (by simpa using hi)
        rw [show p.argc + (i + 1) = p.argc + 1 + i by omega]
        simpa [Parse.storeArgument] using this
  written w hw := h.written w (by simp [Parse.storeArgument, hw])
  arrayWrites i hi := by
    rcases h.arrayWrites i hi with hmem | hin
    · rcases List.mem_cons.mp hmem with heq | hmem
      · cases heq
        exact Or.inr (by omega)
      · exact Or.inl (by simpa using hmem)
    · exact Or.inr hin
  argvWrites i := by
    have hargc : p'.argc = p.argc + 1 + ws.length := h.argc
    rw [h.argvWrites i]
    simp only [Parse.storeArgument, List.mem_cons, reduceCtorEq, Write.argv.injEq, false_or]
    constructor
    · rintro ((h | h) | h)
      · exact Or.inr (by omega)
      · exact Or.inl h
      · exact Or.inr (by omega)
    · rintro (h | h)
      · exact Or.inl (Or.inr h)
      · by_cases hi : i = p.argc
        · exact Or.inl (Or.inl hi)
        · exact Or.inr (by omega)

/-- An iteration writes the NUL behind the argument and goes on behind it. -/
theorem argLoop_word (pre : List UInt8) {d : UInt8} {fuel : Nat}
    (hnext : nextArgument p.array done.length =
      (done.length + pre.length, some (done.length + pre.length + text.length)))
    (harray : p.array = done ++ (pre ++ (text ++ d :: s))) (h0 : 0 ∉ text)
    (hlimit : done.length + pre.length + text.length < limit)
    (hrest : ∀ p : Parse, p.array = done ++ (pre ++ (text ++ [0])) ++ s →
      ∃ p', argLoop fuel (nextArgument p.array (done ++ (pre ++ (text ++ [0]))).length).1
          (nextArgument p.array (done ++ (pre ++ (text ++ [0]))).length).2 p = some p' ∧
        Reads p p' (done ++ (pre ++ (text ++ [0]))) limit ws) :
    ∃ p', argLoop (fuel + 1) (nextArgument p.array done.length).1
        (nextArgument p.array done.length).2 p = some p' ∧
      Reads p p' done limit (⟨q, text⟩ :: ws) := by
  have hset : p.array.set (done.length + pre.length + text.length) 0 =
      done ++ (pre ++ (text ++ [0])) ++ s := by
    rw [harray, Nat.add_assoc]
    simp
  obtain ⟨p', hrun, hreads⟩ := hrest
    (p.storeArgument (done.length + pre.length) (done.length + pre.length + text.length)) hset
  refine ⟨p', ?_, hreads.cons h0 hlimit⟩
  rw [← hrun, hnext]
  simp [argLoop, Nat.add_assoc]

/-- Only the end of the part that remains matters. -/
theorem ends_tail {c : UInt8} (xs : List UInt8) {s : List UInt8}
    (hend : ∀ d ∈ (xs ++ s).getLast?, d = c) : ∀ d ∈ s.getLast?, d = c :=
  fun d hd => hend d (List.mem_getLast?_append_of_mem_getLast? hd)

/-- One iteration for each word of the line. -/
theorem argLoop_splits (h : Splits space quote s ws) :
    ∀ (done : List UInt8) (p : Parse) (fuel limit : Nat), (∀ c ∈ s.getLast?, c = space) → 0 ∉ s →
      p.array = done ++ (s ++ 0 :: tail) → s.length < fuel → done.length + s.length ≤ limit →
      ∃ p', argLoop fuel (nextArgument p.array done.length).1
          (nextArgument p.array done.length).2 p = some p' ∧ Reads p p' done limit ws := by
  induction h with
  | nil =>
      intro done p fuel _ _ _ harray hfuel _
      obtain ⟨n, rfl⟩ := Nat.exists_eq_add_one_of_ne_zero (Nat.ne_of_gt hfuel)
      refine ⟨p, ?_, .none harray⟩
      rw [nextArgument_nil (by rw [harray, List.drop_left]; rfl)]
      rfl
  | @skip s ws hs ih =>
      intro done p fuel limit hend h0 harray hfuel hlimit
      have hshift : nextArgument p.array done.length =
          nextArgument p.array (done ++ [space]).length := by
        have hd : p.array.drop done.length = space :: (s ++ 0 :: tail) := by
          rw [harray, List.drop_left]
          rfl
        rw [nextArgument_space hd]
        simp
      rw [hshift]
      have h0' : 0 ∉ s := fun h => h0 (List.mem_cons_of_mem _ h)
      rw [List.length_cons] at hfuel hlimit
      obtain ⟨p', hrun, hreads⟩ := ih (done ++ [space]) p fuel limit
        (ends_tail [space] hend) h0' (by simpa using harray)
        (Nat.lt_of_succ_lt hfuel) (by rw [List.length_append, List.length_singleton]; omega)
      exact ⟨p', hrun, hreads.shift⟩
  | @unclosed s hs =>
      intro done p fuel _ _ h0 harray hfuel _
      obtain ⟨n, rfl⟩ := Nat.exists_eq_add_one_of_ne_zero (Nat.ne_of_gt (Nat.zero_lt_of_lt hfuel))
      refine ⟨p, ?_, .none harray⟩
      rw [nextArgument_unclosed (by rw [harray, List.drop_left]; rfl)
        (fun h => h0 (List.mem_cons_of_mem _ h)) hs]
      rfl
  | @quoted text s ws htext hs ih =>
      intro done p fuel limit hend h0 harray hfuel hlimit
      simp only [List.mem_cons, List.mem_append, not_or] at h0
      simp only [List.length_cons, List.length_append] at hfuel hlimit
      obtain ⟨n, rfl⟩ := Nat.exists_eq_add_one_of_ne_zero (Nat.ne_of_gt (Nat.zero_lt_of_lt hfuel))
      have hd : p.array.drop done.length = quote :: (text ++ quote :: (s ++ 0 :: tail)) := by
        rw [harray, List.drop_left]
        simp
      refine argLoop_word [quote] (nextArgument_quoted hd h0.2.1 htext)
        (by simpa using harray) h0.2.1 (by simp; omega) fun p₁ harray₁ => ?_
      exact ih _ _ _ _ (ends_tail (quote :: (text ++ [quote])) (by simpa using hend)) h0.2.2.2
        harray₁ (by omega) (by simp; omega)
  | @last c text hsep hc =>
      intro done p fuel _ hend
      obtain ⟨d, hd⟩ := Option.isSome_iff_exists.mp (show (c :: text).getLast?.isSome by simp)
      have hmem := List.mem_of_getLast? hd
      exact (hsep (hend d hd ▸ hmem)).elim
  | @bare c text s ws hsep hc hs ih =>
      intro done p fuel limit hend h0 harray hfuel hlimit
      have h0' : 0 ∉ c :: text ∧ 0 ∉ s := by
        simp only [List.mem_cons, List.mem_append, not_or] at h0 ⊢
        exact ⟨⟨h0.1, h0.2.1⟩, h0.2.2.2⟩
      simp only [List.length_cons, List.length_append] at hfuel hlimit
      obtain ⟨n, rfl⟩ := Nat.exists_eq_add_one_of_ne_zero (Nat.ne_of_gt (Nat.zero_lt_of_lt hfuel))
      have hd : p.array.drop done.length = c :: text ++ space :: (s ++ 0 :: tail) := by
        rw [harray, List.drop_left]
        simp
      refine argLoop_word [] (by simpa using nextArgument_bare hd h0'.1 hc hsep)
        (by simpa using harray) h0'.1 (by simp; omega) fun p₁ harray₁ => ?_
      exact ih _ _ _ _ (ends_tail (c :: (text ++ [space])) (by simpa using hend)) h0'.2 harray₁
        (by omega) (by simp; omega)

end ArgLoop

/-! ## The copy of the line -/

/-- The words of a line: the last byte of the string is taken for its newline. -/
def lineWords (cmdline : List UInt8) : List (Word UInt8) :=
  words space quote (cString cmdline).dropLast

/-- The string with its last byte replaced by a space. -/
def spaced (line : List UInt8) : List UInt8 :=
  if line = [] then [] else line.dropLast ++ [space]

section Copy

variable {cmdline array : List UInt8} {argv : Nat → Option Nat} {p : Parse}

theorem cString_notMem (s : List UInt8) : 0 ∉ cString s := by
  intro h
  simpa using List.mem_takeWhile_imp h

theorem spaced_length (line : List UInt8) : (spaced line).length = line.length := by
  unfold spaced
  split
  next h => rw [h]
  next h =>
    have := List.length_pos_iff.mpr h
    simp only [List.length_append, List.length_dropLast, List.length_singleton]
    omega

theorem spaced_notMem (s : List UInt8) : 0 ∉ spaced (cString s) := by
  unfold spaced
  split
  next => exact List.not_mem_nil
  next =>
    intro h
    rcases List.mem_append.mp h with h | h
    · exact cString_notMem s (List.dropLast_subset _ h)
    · cases List.mem_singleton.mp h

theorem spaced_end (line : List UInt8) : ∀ c ∈ (spaced line).getLast?, c = space := by
  unfold spaced
  split
  next => simp
  next =>
    intro c hc
    simpa using hc.symm

theorem splits_spaced (cmdline : List UInt8) :
    Splits space quote (spaced (cString cmdline)) (lineWords cmdline) := by
  unfold spaced lineWords
  split
  next h =>
    rw [h]
    exact .nil
  next => exact (splits_words _).append_sep quote_ne_space

theorem copyLine_array (cmdline array : List UInt8) :
    (copyLine cmdline array).1 =
      spaced (cString cmdline) ++ 0 :: array.drop ((cString cmdline).length + 1) := by
  have hcopy : cString (strcpy array (cString cmdline)) = cString cmdline :=
    cString_eq (cString_notMem cmdline)
  simp only [copyLine, hcopy]
  unfold spaced
  split
  next h =>
    rw [if_pos (List.eq_nil_of_length_eq_zero h), List.eq_nil_of_length_eq_zero h]
    rfl
  next h =>
    have hne : cString cmdline ≠ [] := fun heq => h (by rw [heq]; rfl)
    obtain ⟨body, last, hline⟩ : ∃ body last, cString cmdline = body ++ [last] :=
      ⟨_, _, (List.dropLast_concat_getLast hne).symm⟩
    simp [hline, strcpy]

theorem copyLine_array_mem (cmdline array : List UInt8) (i : Int) :
    .array i ∈ (copyLine cmdline array).2 ↔
      i = (cString cmdline).length - 1 ∨ 0 ≤ i ∧ i ≤ (cString cmdline).length := by
  have hcopy : cString (strcpy array (cString cmdline)) = cString cmdline :=
    cString_eq (cString_notMem cmdline)
  simp only [copyLine, hcopy, List.mem_cons, Write.array.injEq, List.mem_map, List.mem_range]
  constructor
  · rintro (h | ⟨k, hk, rfl⟩)
    · exact Or.inl h
    · exact Or.inr (by omega)
  · rintro (h | h)
    · exact Or.inl h
    · exact Or.inr ⟨i.toNat, by omega, by omega⟩

theorem copyLine_argv_mem (cmdline array : List UInt8) (i : Nat) :
    .argv i ∉ (copyLine cmdline array).2 := by
  simp [copyLine]

/-! ## The argument list -/

/-- What `tokenize` leaves for the line. -/
structure Tokenized (cmdline : List UInt8) (p : Parse) : Prop where
  argc : p.argc = (lineWords cmdline).length
  filled : p.Filled ((lineWords cmdline).map Word.text)
  arrayWrites : ∀ i : Int, .array i ∈ p.writes ↔
    i = (cString cmdline).length - 1 ∨ 0 ≤ i ∧ i ≤ (cString cmdline).length
  argvWrites : ∀ i, .argv i ∈ p.writes ↔ i ≤ p.argc

theorem Parse.storeNull_arg (p : Parse) (i j : Nat) :
    (p.storeNull i).arg j = if j = i then none else p.arg j := by
  simp only [Parse.arg, Parse.storeNull, Function.update_apply]
  split <;> rfl

theorem tokenize_spec (cmdline array : List UInt8) (argv : Nat → Option Nat) :
    ∃ p, tokenize cmdline array argv = some p ∧ Tokenized cmdline p := by
  have hlen := spaced_length (cString cmdline)
  obtain ⟨p, hrun, hreads⟩ := argLoop_splits (splits_spaced cmdline) []
    ⟨(copyLine cmdline array).1, argv, 0, (copyLine cmdline array).2⟩
    ((copyLine cmdline array).1.length + 1) (cString cmdline).length (spaced_end _)
    (spaced_notMem cmdline) (copyLine_array cmdline array)
    (by rw [copyLine_array, List.length_append]; omega) (by simp [hlen])
  refine ⟨p.storeNull p.argc, ?_, ?_⟩
  · simp only [List.length_nil] at hrun
    simp [tokenize, hrun]
  · have hargc : p.argc = (lineWords cmdline).length := by simpa using hreads.argc
    refine ⟨hargc, fun i hi => ?_, fun i => ?_, fun i => ?_⟩
    · rw [p.storeNull_arg, hargc]
      rw [List.length_map] at hi
      split
      next h => simp [h]
      next h => simpa using hreads.arg i (by omega)
    · simp only [Parse.storeNull, List.mem_cons, reduceCtorEq, false_or]
      constructor
      · intro h
        rcases hreads.arrayWrites i h with h | h
        · exact (copyLine_array_mem cmdline array i).mp h
        · exact Or.inr (by omega)
      · intro h
        exact hreads.written _ ((copyLine_array_mem cmdline array i).mpr h)
    · simp only [Parse.storeNull, List.mem_cons, Write.argv.injEq, hreads.argvWrites]
      simp [copyLine_argv_mem]
      omega

end Copy

/-! ## The result -/

/-- The last word begins with an ampersand, in quotes or not. -/
def Marked (ws : List (Word UInt8)) : Prop :=
  (ws.getLast?.bind fun w => w.text.head?) = some ampersand

instance (ws : List (Word UInt8)) : Decidable (Marked ws) :=
  inferInstanceAs (Decidable (_ = some ampersand))

/-- The arguments that are left. -/
def arguments (ws : List (Word UInt8)) : List (List UInt8) :=
  if Marked ws then (ws.map Word.text).dropLast else ws.map Word.text

/-- What `parseline` answers for the line. -/
structure Parsed (cmdline : List UInt8) (r : Int) (p : Parse) : Prop where
  value : r = if lineWords cmdline = [] ∨ Marked (lineWords cmdline) then 1 else 0
  filled : p.Filled (arguments (lineWords cmdline))
  inBounds : p.InBounds ↔ 0 < (cString cmdline).length ∧ (cString cmdline).length < MAXLINE ∧
    (lineWords cmdline).length < MAXARGS

section Parsed

variable {cmdline : List UInt8} {p : Parse} {c : UInt8}

/-- The first character of a string is that of its memory, unless it is the NUL. -/
theorem Parse.firstChar_iff (i : Nat) (hc : c ≠ 0) :
    p.firstChar i = some c ↔ (p.arg i).bind List.head? = some c := by
  unfold Parse.firstChar Parse.arg
  cases p.argv i with
  | none => simp
  | some buf =>
      simp only [Option.bind_some, Option.map_some, ← List.head?_drop]
      cases p.array.drop buf with
      | nil => simp [cString]
      | cons d rest =>
          by_cases hd : d = 0
          · simp [cString, hd, Ne.symm hc]
          · simp [cString, hd]

theorem Tokenized.inBounds (h : Tokenized cmdline p) :
    p.InBounds ↔ 0 < (cString cmdline).length ∧ (cString cmdline).length < MAXLINE ∧
      (lineWords cmdline).length < MAXARGS := by
  constructor
  · intro hin
    have hfirst := hin _ ((h.arrayWrites _).mpr (Or.inl rfl))
    have hlast := hin _ ((h.arrayWrites (cString cmdline).length).mpr (Or.inr (by omega)))
    have hnull := hin _ ((h.argvWrites p.argc).mpr (Nat.le_refl _))
    rw [h.argc] at hnull
    simp only [Write.InBounds] at hfirst hlast hnull
    omega
  · rintro ⟨hpos, hline, hargs⟩ w hw
    cases w with
    | array i =>
        have := (h.arrayWrites i).mp hw
        simp only [Write.InBounds]
        omega
    | argv i =>
        have := (h.argvWrites i).mp hw
        have := h.argc
        simp only [Write.InBounds]
        omega

/-- The last argument decides. -/
theorem Tokenized.firstChar_iff (h : Tokenized cmdline p) (hne : lineWords cmdline ≠ []) :
    p.firstChar (p.argc - 1) = some ampersand ↔ Marked (lineWords cmdline) := by
  have hlen := List.length_pos_iff.mpr hne
  rw [p.firstChar_iff _ (by decide), h.argc, h.filled _ (by simp), Marked,
    List.getLast?_eq_getElem?, List.getElem?_map, Option.bind_map]
  rfl

theorem Tokenized.parsed (h : Tokenized cmdline p) :
    Parsed cmdline (background p).1 (background p).2 := by
  have hargc := h.argc
  unfold background
  by_cases hempty : lineWords cmdline = []
  · rw [if_pos (by rw [hargc, hempty]; rfl)]
    refine ⟨by simp [hempty], ?_, h.inBounds⟩
    have := h.filled
    simpa [arguments, hempty] using this
  · have hpos := List.length_pos_iff.mpr hempty
    rw [if_neg (by omega)]
    by_cases hmarked : Marked (lineWords cmdline)
    · rw [if_pos ((h.firstChar_iff hempty).mpr hmarked)]
      refine ⟨by simp [hmarked], fun i hi => ?_, ?_⟩
      · simp only [arguments, if_pos hmarked, List.length_dropLast, List.length_map] at hi ⊢
        have hstored := p.storeNull_arg (p.argc - 1) i
        have hfilled := h.filled i (by simp; omega)
        simp only [Parse.arg] at hstored hfilled ⊢
        rw [hstored]
        split
        next hlast => simp [hlast, hargc]
        next hlast => rw [hfilled, List.getElem?_dropLast, if_pos (by simp; omega)]
      · rw [← h.inBounds]
        have hlast := (h.argvWrites (p.argc - 1)).mpr (by omega)
        simpa [Parse.InBounds, Parse.storeNull] using fun hin => hin _ hlast
    · rw [if_neg (fun hf => hmarked ((h.firstChar_iff hempty).mp hf))]
      refine ⟨by simp [hempty, hmarked], ?_, h.inBounds⟩
      simpa [arguments, hmarked] using h.filled

theorem parseline_spec (cmdline array : List UInt8) (argv : Nat → Option Nat) :
    ∃ r p, parseline cmdline array argv = some (r, p) ∧ Parsed cmdline r p := by
  obtain ⟨p, hrun, htokens⟩ := tokenize_spec cmdline array argv
  exact ⟨(background p).1, (background p).2, by rw [parseline, hrun]; rfl, htokens.parsed⟩

end Parsed

end CompOrg.Shell
