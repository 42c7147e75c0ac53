import CompOrg.FileIO.RoundTrip
import CompOrg.SortFile.Main

/-! # The program around `fileio.c`

`sortfile` reads the numbers, prints them, sorts them, prints them again and writes them.
The options are parameters and the output file can be created. Where the input file cannot
be opened, `numbers` is never set and `free` gets what happens to be in it, so the program
has no defined end.
-/

namespace CompOrg.FileIO

open Words SortFile

/-- How the program ends, with what it has printed and written. -/
structure Ending where
  exitValue : Int
  printed : List UInt8
  written : List UInt8
deriving DecidableEq

/-- The elements of the array that `readNumbers` has allocated. -/
def elements (r : Reader) : List Int := (List.range r.limit).map r.array

/-- `main` behind the options; `buf` is what is on the stack of `writeNumbers`. -/
def main (readHex writeHex : Bool) (m : Fresh) (buf : Int → UInt8)
    (file : Option (List (List UInt8))) : Option Ending := do
  let (count, r) ← readNumbers readHex m file
  if count ≥ 0 then
    let before ← printArray (elements r) count writeHex
    let sorted ← bubbleSort (elements r) count true
    let after ← printArray sorted count writeHex
    let written ← writeNumbers writeHex buf ((sorted.take count.toNat).map Int32.ofInt)
    return ⟨0, before ++ after, written⟩
  else none

/-- The file arrives in lines, its words fit into `str`, and they are not too many. -/
structure Readable {file : List UInt8} (d : Chunks file) : Prop where
  short : ∀ w ∈ words isBlank file, w.length ≤ 9
  ends : ∀ piece ∈ d.pieces, ∀ c ∈ piece.getLast?, isBlank c = true
  fits : (words isBlank file).length < capacity

/-- The integers of the file in its order. -/
def integers (readHex : Bool) (file : List UInt8) : List Int :=
  (words isBlank file).map (toInteger readHex)

/-- One line of the output for all numbers. -/
def listing (writeHex : Bool) (ns : List Int) : List UInt8 :=
  if ns = [] then []
  else ['\x7b'.toUInt8] ++ ns.flatMap (fun n => format writeHex n ++ [','.toUInt8]) ++
    ['\x7d'.toUInt8, '\n'.toUInt8]

section Program

variable {readHex writeHex : Bool} {m : Fresh} {buf : Int → UInt8} {file : List UInt8}
  {d : Chunks file} {n : Int}

theorem printArray_listing (front rest : List Int) (writeHex : Bool) :
    printArray (front ++ rest) front.length writeHex = some (listing writeHex front) := by
  unfold printArray listing
  cases front with
  | nil => rfl
  | cons n front =>
      rw [if_pos (by simp), if_neg (List.cons_ne_nil n front), Int.toNat_natCast,
        printLoop_eq _ (by simp), List.drop_zero, List.take_left' rfl]
      rfl

theorem Readable.read (hd : Readable d) (readHex : Bool) (m : Fresh) :
    ∃ r rest, readNumbers readHex m (some d.pieces) =
        some (((integers readHex file).length : Int), r) ∧
      elements r = integers readHex file ++ rest := by
  let f : ShortWords := ⟨file, hd.short⟩
  let e : Delivery f := ⟨d.pieces, d.joined, d.sizes⟩
  have hintegers : e.integers readHex = integers readHex file :=
    e.integers_of_not_splitsWord readHex (not_splitsWord_of_ends hd.ends)
  have hfits : (e.integers readHex).length < capacity := by
    rw [hintegers, integers, List.length_map]
    exact hd.fits
  rcases e.read_spec readHex m with ⟨r, hread, hholds⟩ | ⟨-, hfull⟩
  · rw [hintegers] at hread hholds
    have hlimit := hholds.limit
    obtain ⟨k, hk⟩ : ∃ k, r.limit = (integers readHex file).length + k :=
      Nat.exists_eq_add_of_le (by omega)
    have helements := congrArg (List.map r.array)
      (List.range_add (n := (integers readHex file).length) (m := k))
    rw [← hk, List.map_append, hholds.array] at helements
    exact ⟨r, _, hread, helements⟩
  · omega

theorem toInteger_bounds (readHex : Bool) (str : List UInt8) :
    -2 ^ 31 ≤ toInteger readHex str ∧ toInteger readHex str < 2 ^ 31 := by
  have hint (n : Int) : -2 ^ 31 ≤ int32 n ∧ int32 n < 2 ^ 31 := by
    have hlow : -(((4294967296 : Nat) : Int) / 2) ≤ n.bmod 4294967296 := Int.le_bmod (by decide)
    have hhigh : n.bmod 4294967296 < (((4294967296 : Nat) : Int) + 1) / 2 :=
      Int.bmod_lt (by decide)
    rw [int32]
    omega
  unfold toInteger
  split
  · split
    · exact hint _
    · exact hint _
  · exact hint _

theorem main_sorts (hd : Readable d) (readHex writeHex : Bool) (m : Fresh) (buf : Int → UInt8) :
    ∃ (sorted : List Int32) (written : List UInt8),
      (sorted.map Int32.toInt).Pairwise (· ≤ ·) ∧
      (sorted.map Int32.toInt).Perm (integers readHex file) ∧
      writeNumbers writeHex buf sorted = some written ∧
      main readHex writeHex m buf (some d.pieces) =
        some ⟨0, listing writeHex (integers readHex file) ++
          listing writeHex (sorted.map Int32.toInt), written⟩ := by
  obtain ⟨r, rest, hread, helements⟩ := hd.read readHex m
  obtain ⟨sorted, hsort, hsorted, hperm⟩ := bubbleSort_append (integers readHex file) rest true
  have hcount : sorted.length = (integers readHex file).length := hperm.length_eq
  have hints : (sorted.map Int32.ofInt).map Int32.toInt = sorted := by
    rw [List.map_map]
    have hid : ∀ n ∈ sorted, (Int32.toInt ∘ Int32.ofInt) n = id n := by
      intro n hn
      obtain ⟨w, -, rfl⟩ := List.mem_map.mp (hperm.subset hn)
      obtain ⟨hlow, hhigh⟩ := toInteger_bounds readHex w
      exact Int32.toInt_ofInt_of_le hlow hhigh
    rw [List.map_congr_left hid, List.map_id]
  have hbefore := printArray_listing (integers readHex file) rest writeHex
  have hafter := printArray_listing sorted rest writeHex
  rw [hcount] at hafter
  have hnonneg : ((integers readHex file).length : Int) ≥ 0 := Int.natCast_nonneg _
  have htake : (sorted ++ rest).take (integers readHex file).length = sorted :=
    List.take_left' hcount
  refine ⟨sorted.map Int32.ofInt, _, ?_, ?_, writeNumbers_text writeHex buf _, ?_⟩
  · rw [hints]
    exact hsorted
  · rw [hints]
    exact hperm
  · rw [main, hread]
    simp only [Option.bind_eq_bind, Option.bind_some, if_pos hnonneg, helements, hbefore, hsort,
      hafter, Int.toNat_natCast, htake, writeNumbers_text, hints]
    rfl

/-- The numbers are encoded in the output, unless the least integer is among them. -/
theorem main_encodes_iff (hd : Readable d) (readHex writeHex : Bool) (m : Fresh)
    (buf : Int → UInt8) :
    ∃ (sorted : List Int32) (written : List UInt8),
      (sorted.map Int32.toInt).Pairwise (· ≤ ·) ∧
      (sorted.map Int32.toInt).Perm (integers readHex file) ∧
      main readHex writeHex m buf (some d.pieces) =
        some ⟨0, listing writeHex (integers readHex file) ++
          listing writeHex (sorted.map Int32.toInt), written⟩ ∧
      (written = (sorted.map fun n => encode writeHex n.toInt).flatten ↔
        ∀ n ∈ integers readHex file, n ≠ INT_MIN) := by
  obtain ⟨sorted, written, hsorted, hperm, hwritten, hmain⟩ :=
    main_sorts hd readHex writeHex m buf
  refine ⟨sorted, written, hsorted, hperm, hmain, ?_⟩
  rw [writeNumbers_text, Option.some.injEq, List.flatMap_map] at hwritten
  have hlines : List.Forall₂ (Written writeHex) sorted
      (sorted.map fun n => text writeHex n.toInt ++ ['\n'.toUInt8]) := by
    rw [List.forall₂_map_right_iff, List.forall₂_same]
    intro n _
    unfold Written
    split
    next hmin =>
      rw [hmin, text, if_pos rfl]
      rfl
    next hmin => exact (encode_eq_text hmin).symm
  rw [List.flatMap_def] at hwritten
  constructor
  · rintro hencoded n hn rfl
    obtain ⟨k, hk, hmin⟩ := List.mem_map.mp (hperm.symm.subset hn)
    have hshort := (flatten_length_le hlines).2 ⟨k, hk, hmin⟩
    rw [hwritten, hencoded] at hshort
    exact Nat.lt_irrefl _ hshort
  · intro hnone
    rw [← hwritten]
    congr 1
    apply List.map_congr_left
    intro n hn
    have hmin : n.toInt ≠ INT_MIN := hnone _ (hperm.subset (List.mem_map_of_mem hn))
    exact (encode_eq_text hmin).symm

/-- The file `2 1` and what the program makes of it. -/
def twoOne : Chunks [50, 32, 49, 10] := ⟨[[50, 32, 49, 10]], by decide, by decide⟩

theorem twoOne_readable : Readable twoOne where
  short := by decide +kernel
  ends := by
    simp [twoOne]
    decide
  fits := by decide +kernel

def twoOneEnding : Ending :=
  ⟨0, [123, 50, 44, 49, 44, 125, 10, 123, 49, 44, 50, 44, 125, 10], [49, 10, 50, 10]⟩

theorem twoOne_main :
    main false false ⟨fun _ => 0, fun _ => 0⟩ (fun _ => 0) (some twoOne.pieces) =
      some twoOneEnding := by
  decide +kernel

theorem twoOne_encodes :
    ∃ (sorted : List Int32) (written : List UInt8), (sorted.map Int32.toInt).Perm [2, 1] ∧
      written = (sorted.map fun n => encode false n.toInt).flatten := by
  obtain ⟨sorted, written, -, hperm, -, hencoded⟩ :=
    main_encodes_iff twoOne_readable false false ⟨fun _ => 0, fun _ => 0⟩ fun _ => 0
  have hintegers : integers false [50, 32, 49, 10] = [2, 1] := by decide +kernel
  rw [hintegers] at hperm hencoded
  exact ⟨sorted, written, hperm, hencoded.mpr (by decide)⟩

/-! ## The program on its own output -/

theorem toInteger_text_ne_min (hlow : INT_MIN ≤ n) (hhigh : n < 2147483648) :
    toInteger writeHex (text writeHex n) ≠ INT_MIN := by
  by_cases hn : n = INT_MIN
  · subst hn
    cases writeHex <;> decide +kernel
  · rw [(toInteger_text hlow hhigh).mpr hn]
    exact hn

/-- The line of the least integer is that of no other number. -/
theorem text_eq_min (hlow : INT_MIN ≤ n) (hhigh : n < 2147483648)
    (h : text writeHex n = text writeHex INT_MIN) : n = INT_MIN := by
  by_contra hn
  have hvalue : toInteger writeHex (text writeHex n) = n := (toInteger_text hlow hhigh).mpr hn
  have hzero : toInteger writeHex (text writeHex INT_MIN) = 0 := by
    cases writeHex <;> decide +kernel
  rw [h, hzero] at hvalue
  subst hvalue
  revert h
  cases writeHex <;> decide +kernel

theorem integers_written {sorted : List Int32} {written : List UInt8}
    (h : writeNumbers writeHex buf sorted = some written) :
    words isBlank written = sorted.map (fun n => text writeHex n.toInt) ∧
      integers writeHex written =
        sorted.map fun n => toInteger writeHex (text writeHex n.toInt) := by
  rw [writeNumbers_text, Option.some.injEq] at h
  rw [integers, ← h, words_text, List.map_map]
  exact ⟨rfl, rfl⟩

/-- A second run, in the mode in which the first one has written, leaves the file as it is
exactly when the least integer was not among the numbers. -/
theorem main_again_iff (hd : Readable d) {first : Ending}
    (hrun : main readHex writeHex m buf (some d.pieces) = some first)
    {e : Chunks first.written} (he : Readable e) (m' : Fresh) (buf' : Int → UInt8) :
    (∃ printed, main writeHex writeHex m' buf' (some e.pieces) =
      some ⟨0, printed, first.written⟩) ↔
    ∀ n ∈ integers readHex file, n ≠ INT_MIN := by
  obtain ⟨sorted, written, hsorted, hperm, hwritten, hmain⟩ :=
    main_sorts hd readHex writeHex m buf
  obtain rfl := Option.some.inj (hmain.symm.trans hrun)
  obtain ⟨hwords, hintegers⟩ := integers_written hwritten
  obtain ⟨again, written', hsorted', hperm', hwritten', hmain'⟩ :=
    main_sorts he writeHex writeHex m' buf'
  obtain ⟨hwords', -⟩ := integers_written hwritten'
  rw [hintegers] at hperm'
  constructor
  · rintro ⟨printed, hsecond⟩ n hn rfl
    have hsame : written' = written :=
      congrArg Ending.written (Option.some.inj (hmain'.symm.trans hsecond))
    rw [hsame, hwords] at hwords'
    obtain ⟨k, hk, hmin⟩ := List.mem_map.mp (hperm.symm.subset hn)
    have hline : text writeHex INT_MIN ∈ again.map fun n => text writeHex n.toInt := by
      rw [← hwords', ← hmin]
      exact List.mem_map_of_mem hk
    obtain ⟨l, hl, htext⟩ := List.mem_map.mp hline
    have hmin' := text_eq_min l.le_toInt l.toInt_lt htext
    obtain ⟨j, -, hj⟩ := List.mem_map.mp (hperm'.subset (List.mem_map_of_mem hl))
    rw [hmin'] at hj
    exact toInteger_text_ne_min j.le_toInt j.toInt_lt hj
  · intro hnone
    have hread : sorted.map (fun n => toInteger writeHex (text writeHex n.toInt)) =
        sorted.map Int32.toInt := by
      apply List.map_congr_left
      intro n hn
      exact (toInteger_text n.le_toInt n.toInt_lt).mpr
        (hnone _ (hperm.subset (List.mem_map_of_mem hn)))
    rw [hread] at hperm'
    have hequal : again.map Int32.toInt = sorted.map Int32.toInt :=
      hperm'.eq_of_pairwise (fun a b _ _ => le_antisymm) hsorted' hsorted
    have hagain : again = sorted := List.map_injective_iff.mpr
      (fun a b h => Int32.toInt_inj.mp h) hequal
    rw [hagain, writeNumbers_text, ← writeNumbers_text writeHex buf] at hwritten'
    obtain rfl := Option.some.inj (hwritten.symm.trans hwritten')
    exact ⟨_, hmain'⟩

/-- The output `1` and `2` in two pieces. -/
def sortedLines : Chunks twoOneEnding.written := ⟨[[49, 10], [50, 10]], by decide, by decide⟩

theorem sortedLines_readable : Readable sortedLines where
  short := by decide +kernel
  ends := by
    simp [sortedLines]
    decide
  fits := by decide +kernel

theorem sortedLines_again :
    ∃ printed, main false false ⟨fun _ => 7, fun _ => 7⟩ (fun _ => 7) (some sortedLines.pieces) =
      some ⟨0, printed, [49, 10, 50, 10]⟩ := by
  have hintegers : integers false [50, 32, 49, 10] = [2, 1] := by decide +kernel
  apply (main_again_iff twoOne_readable twoOne_main sortedLines_readable _ _).mpr
  rw [hintegers]
  decide

end Program

end CompOrg.FileIO
