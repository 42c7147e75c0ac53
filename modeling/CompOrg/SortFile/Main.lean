import CompOrg.Lib.Positional
import CompOrg.SortFile.Input
import CompOrg.SortFile.BubbleSort

/-! # The program `sortfile`

`main` allocates `MAX_NUMBERS` bytes for the numbers, which is room for a quarter of
`MAX_NUMBERS` integers, and `readNumbers` stores as many as the file has until its guard
ends the program. The options are parameters, and the output file can be created.
-/

namespace CompOrg.SortFile

open Words

def MAX_NUMBERS : Nat := 100

def sizeofInt : Nat := 4

/-- `malloc(MAX_NUMBERS)`: the integer at the index is in the block. -/
def InBlock (i : Nat) : Prop := (i + 1) * sizeofInt ≤ MAX_NUMBERS

/-- What `main` finds in its block behind `readNumbers`. -/
def block (r : Input) : List Int := (List.range (MAX_NUMBERS / sizeofInt)).map r.array

/-! ## Output -/

def digitChar (d : Nat) : UInt8 :=
  if d < 10 then '0'.toUInt8 + UInt8.ofNat d else 'a'.toUInt8 + UInt8.ofNat (d - 10)

/-- `%x` or `%d` -/
def format (writeHex : Bool) (n : Int) : List UInt8 :=
  if writeHex then (Positional.numeral 16 (n % 4294967296).toNat).map digitChar
  else (if n < 0 then ['-'.toUInt8] else []) ++ (Positional.numeral 10 n.natAbs).map digitChar

/-- `for (i = ..; i < size; i++)` around one `printf`. -/
def printLoop (text : Int → List UInt8) (array : List Int) : Nat → Nat → Option (List UInt8)
  | 0, _ => some []
  | n + 1, i => do
      let a ← array[i]?
      let rest ← printLoop text array n (i + 1)
      return text a ++ rest

/-- What goes to the standard output. -/
def printArray (array : List Int) (size : Int) (writeHex : Bool) : Option (List UInt8) :=
  if size > 0 then do
    let text ← printLoop (fun n => format writeHex n ++ [','.toUInt8]) array size.toNat 0
    return ['\x7b'.toUInt8] ++ text ++ ['\x7d'.toUInt8, '\n'.toUInt8]
  else some []

def line (writeHex : Bool) (n : Int) : List UInt8 := format writeHex n ++ ['\n'.toUInt8]

/-- The contents of the output file. -/
def writeNumbers (array : List Int) (size : Int) (writeHex : Bool) : Option (List UInt8) :=
  printLoop (line writeHex) array size.toNat 0

/-! ## The program -/

/-- How the program ends, with what it has printed and written. -/
inductive Ending
  /-- `exit(0)` in `readNumbers`. -/
  | exited
  | finished (exitValue : Int) (printed : List UInt8) (written : Option (List UInt8))

/-- `main` behind the options; `numbers` is what `malloc` leaves in the block. -/
def main (left : List UInt8 → List UInt8) (readHex writeHex : Bool) (numbers : Nat → Int)
    (fuel : Nat) (file : Option (List UInt8)) : Option Ending := do
  match ← readNumbers left readHex numbers fuel file with
  | .exited => return .exited
  | .returned count r =>
      if count ≥ 0 then
        let before ← printArray (block r) count writeHex
        let sorted ← bubbleSort (block r) count true
        let after ← printArray sorted count writeHex
        let written ← writeNumbers sorted count writeHex
        return .finished 0 (before ++ after) (some written)
      else return .finished (-1) [] none

/-- The word is a decimal numeral of the `int`. -/
structure DecimalInt (w : List UInt8) (n : Int) : Prop where
  numeral : Matches 10 w [] n
  low : -2147483648 ≤ n
  high : n ≤ 2147483647

/-- All numbers are read into the block, and what the program writes are these numbers in
increasing order. -/
structure Accepts (left : List UInt8 → List UInt8) (writeHex : Bool) (numbers : Nat → Int)
    (file : List UInt8) (ns : List Int) : Prop where
  read : ∃ r, readNumbers left false numbers (file.length + 1) (some file) =
      some (.returned ns.length r) ∧
    (∀ i ∈ r.stores, InBlock i) ∧ (List.range ns.length).map r.array = ns
  written : ∃ (sorted : List Int) (printed : List UInt8), sorted.Pairwise (· ≤ ·) ∧ sorted.Perm ns ∧
    main left false writeHex numbers (file.length + 1) (some file) =
      some (.finished 0 printed (some (sorted.flatMap (line writeHex))))

section Main

variable {left : List UInt8 → List UInt8} {writeHex : Bool} {numbers : Nat → Int}
  {file : List UInt8} {ns array : List Int} {text : Int → List UInt8} {i n : Nat}

theorem printLoop_eq (text : Int → List UInt8) (h : i + n ≤ array.length) :
    printLoop text array n i = some (((array.drop i).take n).flatMap text) := by
  induction n generalizing i with
  | zero => rfl
  | succ n ih =>
      have hi : i < array.length := by omega
      rw [printLoop, List.getElem?_eq_getElem hi, ih (by omega), List.drop_eq_getElem_cons hi,
        List.take_succ_cons, List.flatMap_cons]
      rfl

theorem inBlock_iff : InBlock i ↔ i < 25 := by
  unfold InBlock sizeofInt MAX_NUMBERS
  omega

theorem numerals_of_ints (hwords : List.Forall₂ DecimalInt (words isspace file) ns) :
    Numerals 10 file ns :=
  numerals_of_words (by decide) (by decide) file (hwords.imp fun _ _ h => h.numeral)

theorem map_int32_eq {ws : List (List UInt8)} (h : List.Forall₂ DecimalInt ws ns) :
    ns.map int32 = ns := by
  induction h with
  | nil => rfl
  | cons h _ ih => rw [List.map_cons, ih, int32_eq h.low h.high]

/-- The variables of `readNumbers` at its return. -/
def readAll (numbers : Nat → Int) (ns : List Int) : Input :=
  ns.foldl Input.read ⟨numbers, 0, 0, []⟩

theorem readNumbers_ints (left : List UInt8 → List UInt8) (numbers : Nat → Int)
    (hwords : List.Forall₂ DecimalInt (words isspace file) ns) (hlimit : ns.length < 100) :
    readNumbers left false numbers (file.length + 1) (some file) =
      some (.returned ns.length (readAll numbers ns)) := by
  have hns := numerals_of_ints hwords
  have hcount : (⟨numbers, 0, 0, []⟩ : Input).count + ns.length < limit true := by
    simpa [limit] using hlimit
  have hrun : readLoop left 10 true (file.length + 1) file ⟨numbers, 0, 0, []⟩ = _ :=
    readLoop_numerals (by decide) hns (running_start numbers) hcount
      (Nat.lt_succ_of_le hns.length_le)
  simpa [readNumbers, readAll] using hrun

theorem readAll_array (numbers : Nat → Int)
    (hwords : List.Forall₂ DecimalInt (words isspace file) ns) :
    (List.range ns.length).map (readAll numbers ns).array = ns := by
  obtain ⟨-, harray⟩ := foldl_read_array ⟨numbers, 0, 0, []⟩ ns
  rw [List.range_eq_range']
  exact harray.trans (map_int32_eq hwords)

theorem mem_readAll_stores : i ∈ (readAll numbers ns).stores ↔ i < ns.length := by
  rw [readAll, foldl_read_stores]
  simp [List.mem_range']

theorem Accepts.length_le (hwords : List.Forall₂ DecimalInt (words isspace file) ns)
    (h : Accepts left writeHex numbers file ns) : ns.length ≤ 25 := by
  obtain ⟨r, hrun, hstores, -⟩ := h.read
  obtain ⟨k, -, hresult, hlimit, -⟩ :=
    readLoop_returned (by decide) (running_start numbers) hrun
  have hlt : ns.length < 100 := by
    simp only [limit, if_true] at hlimit hresult
    omega
  rw [readNumbers_ints left numbers hwords hlt, Option.some.injEq, Outcome.returned.injEq] at hrun
  obtain ⟨-, rfl⟩ := hrun
  by_contra hlong
  have hin := hstores 25 (mem_readAll_stores.mpr (by omega))
  exact absurd (inBlock_iff.mp hin) (by decide)

theorem block_readAll (numbers : Nat → Int)
    (hwords : List.Forall₂ DecimalInt (words isspace file) ns) (hlength : ns.length ≤ 25) :
    ∃ rest, block (readAll numbers ns) = ns ++ rest := by
  obtain ⟨k, hk⟩ := Nat.exists_eq_add_of_le hlength
  have hsize : MAX_NUMBERS / sizeofInt = ns.length + k := hk
  rw [block, hsize, List.range_add, List.map_append, readAll_array numbers hwords]
  exact ⟨_, rfl⟩

theorem writeNumbers_append (front rest : List Int) (writeHex : Bool) :
    writeNumbers (front ++ rest) front.length writeHex =
      some (front.flatMap (line writeHex)) := by
  rw [writeNumbers, Int.toNat_natCast, printLoop_eq _ (by simp), List.drop_zero,
    List.take_left' rfl]

theorem printArray_append (front rest : List Int) (writeHex : Bool) :
    ∃ printed, printArray (front ++ rest) front.length writeHex = some printed := by
  unfold printArray
  split
  next => exact ⟨_, by rw [Int.toNat_natCast, printLoop_eq _ (by simp)]; rfl⟩
  next => exact ⟨[], rfl⟩

theorem accepts_of_length_le (left : List UInt8 → List UInt8) (writeHex : Bool)
    (numbers : Nat → Int) (hwords : List.Forall₂ DecimalInt (words isspace file) ns)
    (hlength : ns.length ≤ 25) : Accepts left writeHex numbers file ns := by
  have hrun := readNumbers_ints left numbers hwords (by omega)
  obtain ⟨rest, hblock⟩ := block_readAll numbers hwords hlength
  obtain ⟨sorted, hsort, hsorted, hperm⟩ := bubbleSort_append ns rest true
  obtain ⟨before, hbefore⟩ := printArray_append ns rest writeHex
  have hcount : sorted.length = ns.length := hperm.length_eq
  obtain ⟨after, hafter⟩ := printArray_append sorted rest writeHex
  have hwritten := writeNumbers_append sorted rest writeHex
  rw [hcount] at hafter hwritten
  have hnonneg : (ns.length : Int) ≥ 0 := Int.natCast_nonneg _
  refine ⟨⟨_, hrun, fun i hi => ?_, readAll_array numbers hwords⟩, sorted, before ++ after,
    hsorted, hperm, ?_⟩
  · rw [inBlock_iff]
    exact (mem_readAll_stores.mp hi).trans_le hlength
  · rw [main, hrun]
    simp only [Option.bind_eq_bind, Option.bind_some, if_pos hnonneg, hblock, hbefore, hsort,
      hafter, hwritten]
    rfl

/-- The program accepts the numbers that its block has room for. -/
theorem accepts_iff (left : List UInt8 → List UInt8) (writeHex : Bool) (numbers : Nat → Int)
    (file : List UInt8) (ns : List Int)
    (hwords : List.Forall₂ DecimalInt (words isspace file) ns) :
    Accepts left writeHex numbers file ns ↔ ns.length ≤ 25 :=
  ⟨fun h => h.length_le hwords, accepts_of_length_le left writeHex numbers hwords⟩

theorem decimalInt_seven : DecimalInt ['7'.toUInt8] 7 :=
  ⟨(matches_iff (by decide)).mpr rfl, by decide, by decide⟩

theorem accepts_iff_three :
    Accepts id false (fun _ => 0) threeNumerals [7, -5, 12] ↔ [(7 : Int), -5, 12].length ≤ 25 := by
  have hwords : words isspace threeNumerals = [[55], [45, 53], [49, 50]] := by decide +kernel
  have hminus : DecimalInt [45, 53] (-5) :=
    ⟨(matches_iff (by decide)).mpr rfl, by decide, by decide⟩
  have htwelve : DecimalInt [49, 50] 12 :=
    ⟨(matches_iff (by decide)).mpr rfl, by decide, by decide⟩
  apply accepts_iff id false (fun _ => 0) threeNumerals [7, -5, 12]
  rw [hwords]
  exact .cons decimalInt_seven (.cons hminus (.cons htwelve .nil))

/-- The number 7 for `n` times. -/
def sevens (n : Nat) : List UInt8 := (List.replicate n ['7'.toUInt8, ' '.toUInt8]).flatten

theorem forall₂_sevens (n : Nat) :
    List.Forall₂ DecimalInt (words isspace (sevens n)) (List.replicate n 7) := by
  induction n with
  | zero => exact List.Forall₂.nil
  | succ n ih =>
      have hwords : words isspace (sevens (n + 1)) =
          ['7'.toUInt8] :: words isspace (sevens n) := by
        rw [sevens, List.replicate_succ, List.flatten_cons]
        exact words_cons_cons_sep rfl rfl
      rw [hwords, List.replicate_succ]
      exact List.Forall₂.cons decimalInt_seven ih

/-- A file of 26 numbers, which `MAX_NUMBERS` permits. -/
theorem accepts_not_26 :
    List.Forall₂ DecimalInt (words isspace (sevens 26)) (List.replicate 26 7) ∧
      (List.replicate 26 (7 : Int)).length ≤ MAX_NUMBERS ∧
      ¬ Accepts id false (fun _ => 0) (sevens 26) (List.replicate 26 7) := by
  refine ⟨forall₂_sevens 26, by decide, fun h => ?_⟩
  have hle := h.length_le (forall₂_sevens 26)
  rw [List.length_replicate] at hle
  exact absurd hle (by decide)

end Main

end CompOrg.SortFile
