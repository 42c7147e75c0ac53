import CompOrg.Bits.TestSet

/-! # The test harness `btest.c`

For each argument the harness makes a list of values, and it calls a puzzle and its
reference with every combination until the two differ. The time limit is left out.
-/

namespace CompOrg.Bits

open TestRec TwosComplement

/-- What the command line sets. The options `-1`, `-2` and `-3` fix an argument. -/
structure Options where
  grade : Bool
  testFname : Option String
  globalRating : Int
  fixed : Nat → Option CInt

/-! ## The values -/

/-- What one round of the loop for floating point puzzles writes. -/
def floatVals (i : CInt) : List CInt :=
  let smallestNorm := 0x00800000#32
  let one := 0x3f800000#32
  let largestNorm := 0x7f000000#32
  let sign := 0x80000000#32
  [i, sign ||| i,
    smallestNorm + i, smallestNorm - i, sign ||| (smallestNorm + i), sign ||| (smallestNorm - i),
    one + i, one - i, sign ||| (one + i), sign ||| (one - i),
    largestNorm - i, sign ||| (largestNorm - i)]

/-- The infinities, and what is no number. -/
def specialVals : List CInt :=
  let inf := 0x7f800000#32
  let nan := 0x7fc00000#32
  let sign := 0x80000000#32
  [inf, sign ||| inf, nan, sign ||| nan]

/-- What one round of the loop for integer puzzles writes. -/
def sampleVals (randomVal : Nat → CInt) (min max : CInt) (n : Nat) : List CInt :=
  let i := BitVec.ofNat 32 n
  [min + i, max - i] ++
    (if min.toInt ≤ i.toInt ∧ i.toInt ≤ max.toInt then [i] else []) ++
    (if min.toInt ≤ (-i).toInt ∧ (-i).toInt ≤ max.toInt then [-i] else []) ++
    [randomVal n]

/-- The values for an argument, in the order in which the array gets them. The difference
`max - MAX_TEST_VALS` is taken in range. -/
def genVals (opts : Options) (randomVal : Nat → CInt) (min max : CInt) (testRange arg : Nat) :
    List CInt :=
  match opts.fixed arg with
  | some v => [v]
  | none =>
      if (min, max) = patterns then
        ((List.range (Nat.min testRange (2 ^ 23))).flatMap fun i => floatVals (BitVec.ofNat 32 i)) ++
          specialVals
      else if max.toInt - MAX_TEST_VALS ≤ min.toInt then upTo min max
      else (List.range testRange).flatMap (sampleVals randomVal min max)

/-- The roots of `TEST_RANGE` that `pow` gives, cut off. -/
def argTestRange (args : Nat) : Nat :=
  if args = 1 then TEST_RANGE else if args = 2 then 707 else 79

/-! ## The tests -/

/-- A line of output, by the values it is printed from. -/
inductive Line
  | error (name : String) (args : List CInt) (gives : CInt) (shouldBe : Option CInt)
  | row (points rating : Int) (errors : Nat) (name : String)
  | total (points maxPoints : Int)

/-- The combinations of the values, the last argument running first. -/
def tuples {n : Nat} (vals : Fin n → List CInt) : List (Fin n → CInt) :=
  match n with
  | 0 => [Fin.elim0]
  | _ + 1 => (vals 0).flatMap fun v => (tuples fun i => vals i.succ).map (Fin.cons v)

def testArgs (opts : Options) (t : TestRec) (a : Fin t.args → CInt) : Nat × List Line :=
  let r := t.solution a
  let rt := t.test a
  let error := if rt ≠ some r then 1 else 0
  (error, if error ≠ 0 ∧ ¬ opts.grade then [.error t.name (List.ofFn a) r rt] else [])

/-- The loop over the combinations stops at an error. -/
def testLoop (opts : Options) (t : TestRec) : List (Fin t.args → CInt) → Nat × List Line
  | [] => (0, [])
  | a :: rest =>
      let (errors, lines) := testArgs opts t a
      if errors ≠ 0 then (errors, lines) else testLoop opts t rest

/-- `randomVal` gives what the calls of `random_val` for an argument return. -/
def testFunction (opts : Options) (randomVal : Nat → Nat → CInt) (t : TestRec) :
    Nat × List Line :=
  testLoop opts t (tuples fun i : Fin t.args =>
    genVals opts (randomVal i) (t.range i).1 (t.range i).2 (argTestRange t.args) i)

structure Tally where
  errors : Nat
  points : Int
  maxPoints : Int
  output : List Line

def rating (opts : Options) (t : TestRec) : Int :=
  if opts.globalRating ≠ 0 then opts.globalRating else t.rating

def Options.selects (opts : Options) (t : TestRec) : Bool :=
  opts.testFname.all fun name => t.name == name

def runTest (opts : Options) (randomVal : String → Nat → Nat → CInt) (s : Tally)
    (t : TestRec) : Tally :=
  if opts.selects t then
    let rating := rating opts t
    let (terrors, lines) := testFunction opts (randomVal t.name) t
    let tpoints := if terrors = 0 then rating else 0
    let row := if opts.grade ∨ terrors < 1 then [.row tpoints rating terrors t.name] else []
    ⟨s.errors + terrors, s.points + tpoints, s.maxPoints + rating, s.output ++ lines ++ row⟩
  else s

def runTests (opts : Options) (randomVal : String → Nat → Nat → CInt) : Tally :=
  let s := testSet.foldl (runTest opts randomVal) ⟨0, 0, 0, []⟩
  { s with output := s.output ++ [.total s.points s.maxPoints] }

/-! ## Errors -/

section Runs

variable {opts : Options} {t : TestRec}

theorem mem_tuples {n : Nat} {vals : Fin n → List CInt} {a : Fin n → CInt} :
    a ∈ tuples vals ↔ ∀ i, a i ∈ vals i := by
  induction n with
  | zero => simp [tuples, funext_iff]
  | succ n ih =>
      simp only [tuples, List.mem_flatMap, List.mem_map, ih, Fin.forall_fin_succ]
      constructor
      · rintro ⟨v, hv, b, hb, rfl⟩
        exact ⟨hv, hb⟩
      · intro ⟨hzero, hsucc⟩
        exact ⟨a 0, hzero, fun i => a i.succ, hsucc, Fin.cons_self_tail a⟩

theorem testArgs_error (opts : Options) (a : Fin t.args → CInt) :
    (testArgs opts t a).1 = if t.Agrees a then 0 else 1 := by
  simp only [testArgs, Agrees]
  split <;> simp_all

/-- One error is found at most, and none if all combinations agree. -/
theorem testLoop_pass {as : List (Fin t.args → CInt)} (h : ∀ a ∈ as, t.Agrees a) :
    (testLoop opts t as).1 = 0 := by
  induction as with
  | nil => rfl
  | cons a as ih =>
      obtain ⟨ha, has⟩ := List.forall_mem_cons.mp h
      have herror := testArgs_error opts a
      rw [if_pos ha] at herror
      simp [testLoop, herror, ih has]

theorem testLoop_fail {as : List (Fin t.args → CInt)} {a : Fin t.args → CInt} (ha : a ∈ as)
    (h : ¬ t.Agrees a) : (testLoop opts t as).1 = 1 := by
  induction as with
  | nil => exact (List.not_mem_nil ha).elim
  | cons b bs ih =>
      have herror := testArgs_error opts b
      by_cases hb : t.Agrees b
      · rw [if_pos hb] at herror
        have hne : a ≠ b := fun heq => h (heq ▸ hb)
        simp [testLoop, herror, ih ((List.mem_cons.mp ha).resolve_left hne)]
      · rw [if_neg hb] at herror
        simp [testLoop, herror]

/-! ## The values of a floating point puzzle -/

/-- Up to the greatest power of two. -/
theorem not_exposes_of_le {v : CInt} (h : v.toNat ≤ 254 * 2 ^ 23) : ¬ Exposes v := by
  intro hexposes
  have hexponent : v.toNat / 2 ^ 23 % 2 ^ 8 = 254 := hexposes.1
  have hfraction : v.toNat % 2 ^ 23 ≠ 0 := hexposes.2
  omega

theorem not_exposes_sign_or {v : CInt} (h : v.toNat ≤ 254 * 2 ^ 23) :
    ¬ Exposes (0x80000000#32 ||| v) := by
  have hvalue : (0x80000000#32 ||| v).toNat = 2 ^ 31 + v.toNat := by
    have hlow : v.toNat < 2 ^ 31 := by omega
    rw [BitVec.toNat_or, show (0x80000000#32).toNat = 1 <<< 31 from rfl,
      ← Nat.shiftLeft_add_eq_or_of_lt hlow]
    rfl
  intro hexposes
  have hexponent : (0x80000000#32 ||| v).toNat / 2 ^ 23 % 2 ^ 8 = 254 := hexposes.1
  have hfraction : (0x80000000#32 ||| v).toNat % 2 ^ 23 ≠ 0 := hexposes.2
  omega

theorem not_exposes_floatVals {i : CInt} (hi : i.toNat < 2 ^ 23) :
    ∀ v ∈ floatVals i, ¬ Exposes v := by
  have hbelow : ∀ c : CInt, 2 ^ 23 ≤ c.toNat → c.toNat ≤ 254 * 2 ^ 23 →
      (c - i).toNat ≤ 254 * 2 ^ 23 := by
    intro c hlow hhigh
    bv_omega
  have habove : ∀ c : CInt, c.toNat ≤ 253 * 2 ^ 23 → (c + i).toNat ≤ 254 * 2 ^ 23 := by
    intro c hhigh
    bv_omega
  have hzero : i.toNat ≤ 254 * 2 ^ 23 := by omega
  have hnormA := habove 0x00800000#32 (by decide)
  have hnormB := hbelow 0x00800000#32 (by decide) (by decide)
  have honeA := habove 0x3f800000#32 (by decide)
  have honeB := hbelow 0x3f800000#32 (by decide) (by decide)
  have hgreatest := hbelow 0x7f000000#32 (by decide) (by decide)
  simp only [floatVals, List.forall_mem_cons, List.not_mem_nil, false_implies, implies_true,
    and_true]
  exact ⟨not_exposes_of_le hzero, not_exposes_sign_or hzero,
    not_exposes_of_le hnormA, not_exposes_of_le hnormB,
    not_exposes_sign_or hnormA, not_exposes_sign_or hnormB,
    not_exposes_of_le honeA, not_exposes_of_le honeB,
    not_exposes_sign_or honeA, not_exposes_sign_or honeB,
    not_exposes_of_le hgreatest, not_exposes_sign_or hgreatest⟩

theorem not_exposes_specialVals : ∀ v ∈ specialVals, ¬ Exposes v := by
  simp only [specialVals, List.forall_mem_cons, List.not_mem_nil, false_implies, implies_true,
    and_true]
  exact ⟨by decide, by decide, by decide, by decide⟩

/-! ## The values of an argument -/

variable {random : Nat → CInt} {v : CInt}

theorem genVals_fixed {min max : CInt} {testRange arg : Nat} (hfixed : opts.fixed arg = some v) :
    genVals opts random min max testRange arg = [v] := by
  rw [genVals, hfixed]

theorem not_exposes_genVals {testRange arg : Nat} (hfixed : opts.fixed arg = none) :
    ∀ v ∈ genVals opts random patterns.1 patterns.2 testRange arg, ¬ Exposes v := by
  intro v hv
  simp only [genVals, hfixed, if_true, List.mem_append, List.mem_flatMap, List.mem_range] at hv
  rcases hv with ⟨n, hn, hv⟩ | hv
  · have hlt : n < 2 ^ 23 := hn.trans_le (Nat.min_le_right _ _)
    refine not_exposes_floatVals ?_ v hv
    rw [BitVec.toNat_ofNat]
    omega
  · exact not_exposes_specialVals v hv

theorem admits_genVals {testRange : Nat} {i : Fin t.args}
    (hfixed : ∀ v, opts.fixed i = some v → t.Admits i v) (hsmall : t.Exhaustive i)
    (hv : v ∈ genVals opts random (t.range i).1 (t.range i).2 testRange i) : t.Admits i v := by
  have hle : (t.range i).2.toInt - MAX_TEST_VALS ≤ (t.range i).1.toInt := hsmall
  unfold genVals at hv
  split at hv
  next w hw =>
    obtain rfl := List.mem_singleton.mp hv
    exact hfixed v hw
  next =>
    by_cases hpatterns : t.range i = patterns
    · exact Or.inl hpatterns
    · rw [if_neg hpatterns, if_pos hle, mem_upTo] at hv
      exact Or.inr hv

/-! ## Runs over the table -/

/-- The options fix arguments that the selected puzzles may be called with. -/
def Options.Fits (opts : Options) : Prop :=
  ∀ t ∈ testSet, opts.selects t → ∀ (i : Fin t.args) (v : CInt),
    opts.fixed i = some v → t.Admits i v

/-- The option `-1` gives `float_twice` a pattern that it does not double. -/
def Options.Exposes (opts : Options) : Prop :=
  opts.selects floatTwiceRec ∧ ∃ v ∈ opts.fixed 0, Bits.Exposes v

/-- The combinations that a puzzle is tested with. -/
def Combination (opts : Options) (randomVal : Nat → Nat → CInt) (t : TestRec)
    (a : Fin t.args → CInt) : Prop :=
  ∀ i : Fin t.args, a i ∈
    genVals opts (randomVal i) (t.range i).1 (t.range i).2 (argTestRange t.args) i

variable {randomVal : Nat → Nat → CInt}

theorem testFunction_pass (h : ∀ a, Combination opts randomVal t a → t.Agrees a) :
    (testFunction opts randomVal t).1 = 0 :=
  testLoop_pass fun a ha => h a (mem_tuples.mp ha)

theorem testFunction_fail {a : Fin t.args → CInt} (ha : Combination opts randomVal t a)
    (h : ¬ t.Agrees a) : (testFunction opts randomVal t).1 = 1 :=
  testLoop_fail (mem_tuples.mpr ha) h

theorem pass_of_ne (hfits : opts.Fits) (ht : t ∈ testSet) (hname : t.name ≠ "float_twice")
    (hselects : opts.selects t = true) : (testFunction opts randomVal t).1 = 0 := by
  apply testFunction_pass
  intro a ha
  apply agrees_of_mem ht hname
  intro i hsmall
  exact admits_genVals (hfits t ht hselects i) hsmall (ha i)

theorem floatTwiceRec_combination {a : Fin floatTwiceRec.args → CInt}
    {i : Fin floatTwiceRec.args} : a i ∈ genVals opts (randomVal i) (floatTwiceRec.range i).1
      (floatTwiceRec.range i).2 (argTestRange floatTwiceRec.args) i ↔
    a i ∈ genVals opts (randomVal 0) patterns.1 patterns.2 TEST_RANGE 0 := by
  have hzero : (i : Nat) = 0 := Nat.lt_one_iff.mp i.isLt
  rw [floatTwiceRec_range, hzero]
  rfl

theorem floatTwice_pass (h : ∀ v ∈ opts.fixed 0, ¬ Exposes v) :
    (testFunction opts randomVal floatTwiceRec).1 = 0 := by
  apply testFunction_pass
  intro a ha
  rw [floatTwiceRec_agrees_iff]
  intro ⟨i, hexposes⟩
  have hi := floatTwiceRec_combination.mp (ha i)
  cases hfixed : opts.fixed 0 with
  | none => exact not_exposes_genVals hfixed _ hi hexposes
  | some v =>
      rw [genVals_fixed hfixed, List.mem_singleton] at hi
      exact h v hfixed (hi ▸ hexposes)

theorem floatTwice_fail {v : CInt} (hfixed : opts.fixed 0 = some v) (h : Exposes v) :
    (testFunction opts randomVal floatTwiceRec).1 = 1 := by
  have hcombination : Combination opts randomVal floatTwiceRec fun _ => v := by
    intro i
    rw [floatTwiceRec_combination (a := fun _ => v), genVals_fixed hfixed]
    exact List.mem_singleton.mpr rfl
  apply testFunction_fail hcombination
  rw [floatTwiceRec_agrees_iff]
  exact fun hnone => hnone ⟨(0 : Fin 1), h⟩

end Runs

section Totals

variable {opts : Options} {random : String → Nat → Nat → CInt}

/-- The errors, and the points that are missing. -/
def Tally.verdict (s : Tally) : Nat × Int := (s.errors, s.maxPoints - s.points)

theorem runTest_pass {s : Tally} {t : TestRec}
    (h : opts.selects t = true → (testFunction opts (random t.name) t).1 = 0) :
    (runTest opts random s t).verdict = s.verdict := by
  unfold runTest
  split
  next hselects => simp [Tally.verdict, h hselects]
  next => rfl

theorem foldl_runTest_pass {ts : List TestRec} {s : Tally}
    (h : ∀ t ∈ ts, opts.selects t = true → (testFunction opts (random t.name) t).1 = 0) :
    (ts.foldl (runTest opts random) s).verdict = s.verdict := by
  induction ts generalizing s with
  | nil => rfl
  | cons t ts ih =>
      obtain ⟨ht, hts⟩ := List.forall_mem_cons.mp h
      rw [List.foldl_cons, ih hts, runTest_pass ht]

theorem runTest_fail {s : Tally} {t : TestRec} (hselects : opts.selects t = true)
    (h : (testFunction opts (random t.name) t).1 = 1) :
    (runTest opts random s t).verdict =
      (s.verdict.1 + 1, s.verdict.2 + rating opts t) := by
  simp [runTest, hselects, Tally.verdict, h]
  ring

theorem mem_dropLast_testSet {t : TestRec} (ht : t ∈ testSet.dropLast) :
    t ∈ testSet ∧ t.name ≠ "float_twice" := by
  refine ⟨List.dropLast_subset _ ht, ?_⟩
  intro hname
  have hnone : "float_twice" ∉ testSet.dropLast.map TestRec.name := by decide
  exact hnone (List.mem_map.mpr ⟨t, ht, hname⟩)

/-- Whatever `random_val` returns, the table passes as a whole with all points, unless the
command line gives `float_twice` a pattern that it does not double. -/
theorem runTests_verdict (hfits : opts.Fits) (random : String → Nat → Nat → CInt) :
    (opts.Exposes → (runTests opts random).verdict = (1, rating opts floatTwiceRec)) ∧
      (¬ opts.Exposes → (runTests opts random).verdict = (0, 0)) := by
  have hsplit : testSet = testSet.dropLast ++ [floatTwiceRec] := rfl
  have hrest : ∀ t ∈ testSet.dropLast, opts.selects t = true →
      (testFunction opts (random t.name) t).1 = 0 := by
    intro t ht hselects
    obtain ⟨hmem, hname⟩ := mem_dropLast_testSet ht
    exact pass_of_ne hfits hmem hname hselects
  have hbefore := foldl_runTest_pass hrest (s := ⟨0, 0, 0, []⟩)
  have hlast : (runTests opts random).verdict = (runTest opts random
      (testSet.dropLast.foldl (runTest opts random) ⟨0, 0, 0, []⟩) floatTwiceRec).verdict := by
    rw [runTests, hsplit, List.foldl_append]
    rfl
  rw [hlast]
  constructor
  · intro ⟨hselects, v, hfixed, hexposes⟩
    rw [runTest_fail hselects (floatTwice_fail hfixed hexposes), hbefore]
    simp [Tally.verdict]
  · intro hnone
    rw [runTest_pass, hbefore]
    · rfl
    · intro hselects
      exact floatTwice_pass fun v hfixed hexposes => hnone ⟨hselects, v, hfixed, hexposes⟩

/-- Bit 22 set in the greatest exponent: the one test fails, and its four points are missing. -/
theorem greatest_caught :
    (runTests ⟨true, some "float_twice", 0, fun i => if i = 0 then some 0x7f400000#32 else none⟩
      fun _ _ _ => 0).verdict = (1, 4) := by
  have hexposes : Exposes 0x7f400000#32 := by decide
  refine (runTests_verdict ?_ _).1 ⟨rfl, 0x7f400000#32, rfl, hexposes⟩
  intro t ht hselects i v _
  obtain rfl := eq_floatTwiceRec ht (eq_of_beq hselects)
  exact Or.inl (floatTwiceRec_range i)

end Totals

/-! ## The arrays -/

section Arrays

variable {opts : Options} {t : TestRec} {random : Nat → CInt}

theorem length_flatMap_range_le {α : Type} {f : Nat → List α} {k : Nat} (n : Nat)
    (h : ∀ i, (f i).length ≤ k) : ((List.range n).flatMap f).length ≤ n * k := by
  rw [List.length_flatMap]
  refine (List.sum_le_card_nsmul _ k ?_).trans_eq ?_
  · intro l hl
    obtain ⟨i, -, rfl⟩ := List.mem_map.mp hl
    exact h i
  · rw [List.length_map, List.length_range, Nat.nsmul_eq_mul]

theorem length_sampleVals_le (random : Nat → CInt) (min max : CInt) (n : Nat) :
    (sampleVals random min max n).length ≤ 5 := by
  simp only [sampleVals]
  split <;> split <;> simp

theorem argTestRange_le (args : Nat) : argTestRange args ≤ TEST_RANGE := by
  unfold argTestRange TEST_RANGE
  split <;> [skip; split] <;> omega

/-- No range of the table is of the one length that is tried value by value but is too long. -/
theorem range_length (ht : t ∈ testSet) (i : Fin t.args) :
    (t.range i).2.toInt - (t.range i).1.toInt ≠ MAX_TEST_VALS := by
  have hall : ∀ t ∈ testSet, ∀ i : Fin 3,
      (t.argRanges i).2.toInt - (t.argRanges i).1.toInt ≠ MAX_TEST_VALS := by decide
  exact hall t ht _

theorem mem_sampleVals {min max v : CInt} {n : Nat} (hwide : min.toInt + n ≤ max.toInt)
    (hrandom : min.toInt ≤ (random n).toInt ∧ (random n).toInt ≤ max.toInt)
    (hv : v ∈ sampleVals random min max n) : min.toInt ≤ v.toInt ∧ v.toInt ≤ max.toInt := by
  have hlt := BitVec.two_mul_toInt_lt (x := max)
  have hge := BitVec.le_two_mul_toInt (x := min)
  simp only [sampleVals, List.mem_append, List.mem_cons, List.not_mem_nil, or_false,
    List.mem_ite_nil_right] at hv
  rcases hv with ((hv | hv) | hv) | rfl
  · rcases hv with rfl | rfl
    · rw [toInt_add_ofNat (by omega)]
      omega
    · rw [toInt_sub_ofNat (by omega)]
      omega
  · rw [hv.2]
    exact hv.1
  · rw [hv.2]
    exact hv.1
  · exact hrandom

/-- In every run the values of an argument fit into their array, and the puzzle may be called
with each of them. -/
theorem genVals_fits (ht : t ∈ testSet) {i : Fin t.args}
    (hfixed : ∀ v, opts.fixed i = some v → t.Admits i v) (hrandom : ∀ n, t.Admits i (random n)) :
    (genVals opts random (t.range i).1 (t.range i).2 (argTestRange t.args) i).length ≤
        MAX_TEST_VALS ∧
      ∀ v ∈ genVals opts random (t.range i).1 (t.range i).2 (argTestRange t.args) i,
        t.Admits i v := by
  have hrange := argTestRange_le t.args
  have htest : TEST_RANGE = 500000 := rfl
  have hmax : MAX_TEST_VALS = 6500000 := rfl
  unfold genVals
  split
  next w hw =>
    refine ⟨by rw [List.length_singleton]; omega, ?_⟩
    intro v hv
    rw [List.mem_singleton.mp hv]
    exact hfixed w hw
  next =>
    by_cases hpatterns : t.range i = patterns
    · rw [if_pos hpatterns]
      refine ⟨?_, fun v _ => Or.inl hpatterns⟩
      have hlength := length_flatMap_range_le (f := fun n => floatVals (BitVec.ofNat 32 n)) (k := 12)
        (Nat.min (argTestRange t.args) (2 ^ 23)) fun _ => le_refl 12
      have hmin : (argTestRange t.args).min (2 ^ 23) ≤ argTestRange t.args := Nat.min_le_left _ _
      have hspecial : specialVals.length = 4 := rfl
      rw [List.length_append, hspecial]
      omega
    · rw [if_neg hpatterns]
      by_cases hsmall : (t.range i).2.toInt - MAX_TEST_VALS ≤ (t.range i).1.toInt
      · rw [if_pos hsmall]
        refine ⟨?_, fun v hv => Or.inr (mem_upTo.mp hv)⟩
        have hlength := range_length ht i
        rw [upTo, List.length_map, List.length_range]
        omega
      · rw [if_neg hsmall]
        have hlength := length_flatMap_range_le (argTestRange t.args)
          (length_sampleVals_le random (t.range i).1 (t.range i).2)
        refine ⟨by omega, ?_⟩
        intro v hv
        obtain ⟨n, hn, hv⟩ := List.mem_flatMap.mp hv
        rw [List.mem_range] at hn
        exact Or.inr (mem_sampleVals (by omega) ((hrandom n).resolve_left hpatterns) hv)

/-- The array for the only argument of `float_twice`, with no option given. -/
theorem floatTwiceRec_fits :
    (genVals ⟨false, none, 0, fun _ => none⟩ (fun _ => 0) (floatTwiceRec.range (0 : Fin 1)).1
      (floatTwiceRec.range (0 : Fin 1)).2 (argTestRange floatTwiceRec.args)
      (0 : Fin 1)).length ≤ MAX_TEST_VALS := by
  have hmem : floatTwiceRec ∈ testSet := by simp [testSet]
  exact (genVals_fits hmem (fun v h => (Option.some_ne_none v h.symm).elim) fun _ =>
    Or.inl (floatTwiceRec_range _)).1

end Arrays

end CompOrg.Bits
