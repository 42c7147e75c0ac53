import CompOrg.Bits.Harness
import CompOrg.Bits.Show

/-! # The command line of `btest.c`

The options come as `getopt` delivers them. A value for an argument is stored in `argval`,
and the copy of `get_num_val` in this file looks at what is stored there already: it takes a
number only in the place of a zero. The program is built for 32 bits, so `atoi` clamps.
-/

namespace CompOrg.Bits

/-! ## The options -/

inductive Opt
  | g
  | f (optarg : String)
  | r (optarg : List UInt8)
  | T (optarg : List UInt8)
  /-- `-1`, `-2` and `-3` -/
  | value (k : Fin 3) (optarg : List UInt8)
  /-- `-h`, and what is no option -/
  | usage
  deriving DecidableEq

/-- Before the first option. -/
def Options.start : Options := ⟨false, none, 0, fun _ => none⟩

/-- `argval[k]` -/
def Options.argval (opts : Options) (k : Fin 3) : UInt32 :=
  match opts.fixed k with
  | some v => UInt32.ofBitVec v
  | none => 0

def Options.fix (opts : Options) (k : Fin 3) (v : UInt32) : Options :=
  { opts with fixed := Function.update opts.fixed k (some v.toBitVec) }

/-- One round of the `switch`, or an exit. -/
def Options.read (strtof : List UInt8 → Option UInt32) (opts : Options) : Opt → Option Options
  | .g => some { opts with grade := true }
  | .f optarg => some { opts with testFname := some optarg }
  | .r optarg =>
      if atoi32 optarg < 0 then none else some { opts with globalRating := atoi32 optarg }
  | .T _ => some opts
  | .value k optarg => (btestNumVal strtof (opts.argval k) optarg).map (opts.fix k)
  | .usage => none

def readOptions (strtof : List UInt8 → Option UInt32) (argv : List Opt) : Option Options :=
  argv.foldlM (Options.read strtof) Options.start

/-! ## What is accepted -/

/-- No value looks like a floating point number. -/
def Opt.Integral : Opt → Prop
  | .value _ optarg => (optarg.foldl numberFlags (false, false)).2 = false
  | _ => True

/-- The option by itself. -/
def Opt.Valid : Opt → Prop
  | .value _ optarg => -2 ^ 31 ≤ strtol optarg 0 ∧ strtol optarg 0 < 2 ^ 32
  | .r optarg => 0 ≤ atoi32 optarg
  | .usage => False
  | _ => True

/-- A value does not stand in the way of a later one. -/
def Opt.Before : Opt → Opt → Prop
  | .value k optarg, .value k' _ => k = k' → strtol optarg 0 = 0
  | _, _ => True

instance : DecidablePred Opt.Integral
  | .value _ _ => instDecidableEqBool _ _
  | .g | .f _ | .r _ | .T _ | .usage => isTrue trivial

instance : DecidablePred Opt.Valid
  | .value _ optarg =>
      inferInstanceAs (Decidable (-2 ^ 31 ≤ strtol optarg 0 ∧ strtol optarg 0 < 2 ^ 32))
  | .r optarg => inferInstanceAs (Decidable (0 ≤ atoi32 optarg))
  | .usage => isFalse id
  | .g | .f _ | .T _ => isTrue trivial

instance : DecidableRel Opt.Before := fun o o' =>
  match o, o' with
  | .value k optarg, .value k' _ => inferInstanceAs (Decidable (k = k' → strtol optarg 0 = 0))
  | .g, _ | .f _, _ | .r _, _ | .T _, _ | .usage, _ | .value _ _, .g | .value _ _, .f _
  | .value _ _, .r _ | .value _ _, .T _ | .value _ _, .usage => isTrue trivial

/-- The last option of each kind counts. -/
def Options.set (opts : Options) : Opt → Options
  | .g => { opts with grade := true }
  | .f optarg => { opts with testFname := some optarg }
  | .r optarg => { opts with globalRating := atoi32 optarg }
  | .value k optarg => opts.fix k (UInt32.ofInt (strtol optarg 0))
  | .T _ | .usage => opts

/-- There is room for the value. -/
def Opt.Free (opts : Options) : Opt → Prop
  | .value k _ => opts.argval k = 0
  | _ => True

variable {strtof : List UInt8 → Option UInt32} {opts opts' : Options} {o o' : Opt}

@[simp] theorem fix_argval (opts : Options) (k k' : Fin 3) (v : UInt32) :
    (opts.fix k v).argval k' = if k' = k then v else opts.argval k' := by
  unfold Options.argval Options.fix
  by_cases hk : k' = k
  · subst hk
    simp
  · have hne : (k' : Nat) ≠ k := fun heq => hk (Fin.ext heq)
    simp [hk, Function.update_of_ne hne]

theorem ofInt_eq_zero_iff {n : Int} (hlow : -2 ^ 31 ≤ n) (hhigh : n < 2 ^ 32) :
    UInt32.ofInt n = 0 ↔ n = 0 := by
  rw [← UInt32.toNat_inj, UInt32.ofInt, UInt32.toNat_ofNat', UInt32.toNat_zero]
  omega

theorem read_eq (strtof : List UInt8 → Option UInt32) (opts : Options) (hinteger : o.Integral) :
    (o.Valid ∧ o.Free opts → opts.read strtof o = some (opts.set o)) ∧
      (¬ (o.Valid ∧ o.Free opts) → opts.read strtof o = none) := by
  cases o with
  | g | f | T => exact ⟨fun _ => rfl, fun h => (h ⟨trivial, trivial⟩).elim⟩
  | r optarg =>
      refine ⟨fun h => if_neg (not_lt.mpr h.1), fun h => if_pos (not_le.mp fun hle => ?_)⟩
      exact h ⟨hle, trivial⟩
  | usage => exact ⟨fun h => h.1.elim, fun _ => rfl⟩
  | value k optarg =>
      have hread : btestNumVal strtof (opts.argval k) optarg = _ :=
        getNumVal_of_strtol hinteger rfl
      simp only [decide_eq_true_eq] at hread
      constructor
      · rintro ⟨hvalid, hfree⟩
        rw [if_pos ⟨hfree, hvalid⟩] at hread
        rw [Options.read, hread]
        rfl
      · intro h
        rw [if_neg fun hboth => h ⟨hboth.2, hboth.1⟩] at hread
        rw [Options.read, hread]
        rfl

/-- After an option there is room for another one that it does not stand in the way of. -/
theorem free_set (hvalid : o.Valid) (hfree : o.Free opts) :
    o'.Free (opts.set o) ↔ o.Before o' ∧ o'.Free opts := by
  cases o' with
  | value k' optarg' =>
      cases o with
      | value k optarg =>
          have hzero := ofInt_eq_zero_iff hvalid.1 hvalid.2
          replace hfree : opts.argval k = 0 := hfree
          change (opts.fix k _).argval k' = 0 ↔
            (k = k' → strtol optarg 0 = 0) ∧ opts.argval k' = 0
          rw [fix_argval]
          by_cases hk : k' = k
          · subst hk
            simp [hzero, hfree]
          · simp [hk, Ne.symm hk]
      | g | f | r | T | usage => exact (and_iff_right trivial).symm
  | g | f | r | T | usage => cases o <;> exact iff_of_true trivial ⟨trivial, trivial⟩

theorem foldlM_read_iff {argv : List Opt} (hinteger : ∀ o ∈ argv, o.Integral) :
    argv.foldlM (Options.read strtof) opts = some opts' ↔
      ((∀ o ∈ argv, o.Valid ∧ o.Free opts) ∧ argv.Pairwise Opt.Before) ∧
        opts' = argv.foldl Options.set opts := by
  induction argv generalizing opts with
  | nil => simp [eq_comm]
  | cons o argv ih =>
      obtain ⟨ho, hinteger⟩ := List.forall_mem_cons.mp hinteger
      obtain ⟨hsome, hnone⟩ := read_eq strtof opts ho
      rw [List.foldlM_cons, List.forall_mem_cons, List.pairwise_cons, List.foldl_cons]
      by_cases hok : o.Valid ∧ o.Free opts
      · have hfree : ∀ o', o'.Free (opts.set o) ↔ o.Before o' ∧ o'.Free opts :=
          fun _ => free_set hok.1 hok.2
        rw [hsome hok, Option.bind_eq_bind, Option.bind_some, ih hinteger]
        simp only [hfree, hok, true_and]
        refine and_congr_left fun _ => ?_
        constructor
        · rintro ⟨hall, hpairwise⟩
          exact ⟨fun o' ho' => ⟨(hall o' ho').1, (hall o' ho').2.2⟩,
            fun o' ho' => (hall o' ho').2.1, hpairwise⟩
        · rintro ⟨hall, hbefore, hpairwise⟩
          exact ⟨fun o' ho' => ⟨(hall o' ho').1, hbefore o' ho', (hall o' ho').2⟩, hpairwise⟩
      · rw [hnone hok]
        refine iff_of_false (fun h => nomatch h) fun h => hok h.1.1.1

/-- A command line with integers is accepted when every option is and each argument was given
zeros only before its last value; then the last options count. -/
theorem readOptions_iff (strtof : List UInt8 → Option UInt32) {argv : List Opt}
    (hinteger : ∀ o ∈ argv, o.Integral) :
    readOptions strtof argv = some opts ↔
      (∀ o ∈ argv, o.Valid) ∧ argv.Pairwise Opt.Before ∧
        opts = argv.foldl Options.set Options.start := by
  have hfree : ∀ o : Opt, o.Free Options.start := by
    intro o
    cases o <;> trivial
  rw [readOptions, foldlM_read_iff hinteger, and_assoc]
  simp only [hfree, and_true]

/-- A zero, a name, and another value. -/
def zeroThenFive : List Opt :=
  [.value 0 (ascii "0"), .f "float_twice", .value 0 (ascii "5")]

theorem zeroThenFive_read :
    readOptions (fun _ => none) zeroThenFive =
      some (zeroThenFive.foldl Options.set Options.start) :=
  (readOptions_iff (fun _ => none) (by decide +kernel)).mpr
    ⟨by decide +kernel, by decide +kernel, rfl⟩

example (strtof : List UInt8 → Option UInt32) :
    readOptions strtof [.value 0 (ascii "5"), .value 0 (ascii "6")] = none := rfl

example : atoi32 (ascii "4294967295") = 2147483647 := by decide +kernel

end CompOrg.Bits
