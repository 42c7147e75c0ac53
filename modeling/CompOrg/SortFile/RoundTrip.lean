import CompOrg.SortFile.Main
import CompOrg.Lib.Figures

/-! # Reading back with `fscanf`

`writeNumbers` prints a number with `%x` or `%d` on a line of its own, and `readNumbers`
converts with the same letter. In base 16 a negative number is written as the bits that it
has, and the store into an `int` gives it its sign back. The guard of the decimal loop ends
the program before it has read a hundredth number.
-/

namespace CompOrg.SortFile

def base (writeHex : Bool) : Nat := if writeHex then 16 else 10

def converted (writeHex : Bool) (n : Int) : Int := if writeHex then n % 4294967296 else n

/-- After the tests of one loop the numbers are in the array. -/
def Returns (left : List UInt8 → List UInt8) (readHex : Bool) (numbers : Nat → Int)
    (file : List UInt8) (array : List Int32) : Prop :=
  ∃ r, readNumbers left readHex numbers (file.length + 1) (some file) =
      some (.returned array.length r) ∧
    (List.range array.length).map r.array = array.map Int32.toInt

section RoundTrip

variable {left : List UInt8 → List UInt8} {writeHex : Bool} {numbers : Nat → Int} {n : Int}
  {rest : List UInt8} {array : List Int32}

theorem figures_digitChar (writeHex : Bool) : Figures (base writeHex) digitChar := by
  cases writeHex with
  | false => exact (by decide : ∀ d < 10, digitValue (digitChar d) = d)
  | true => exact (by decide : ∀ d < 16, digitValue (digitChar d) = d)

/-- A number in front of white space is what a conversion reads. -/
theorem matches_format (writeHex : Bool) (n : Int) (hrest : ∀ c ∈ rest.head?, isspace c = true) :
    Matches (base writeHex) (format writeHex n ++ rest) rest (converted writeHex n) := by
  cases writeHex with
  | false =>
      have hmatches : Matches 10
          (minus (decide (n < 0)) ++ (inFigures 10 digitChar n.natAbs ++ rest)) rest
          (if decide (n < 0) then -(n.natAbs : Int) else n.natAbs) :=
        (figures_digitChar false).matches (by decide) (by decide) hrest
      have hvalue : (if decide (n < 0) then -(n.natAbs : Int) else n.natAbs) = n := by
        simp only [decide_eq_true_eq]
        omega
      have hformat : format false n = minus (decide (n < 0)) ++ inFigures 10 digitChar n.natAbs := by
        simp [format, minus, inFigures]
      rw [hvalue, ← List.append_assoc, ← hformat] at hmatches
      exact hmatches
  | true =>
      have hmatches : Matches 16
          (minus false ++ (inFigures 16 digitChar (n % 4294967296).toNat ++ rest)) rest
          (if false then -((n % 4294967296).toNat : Int) else (n % 4294967296).toNat) :=
        (figures_digitChar true).matches (by decide) (by decide) hrest
      have hvalue : ((n % 4294967296).toNat : Int) = n % 4294967296 :=
        Int.toNat_of_nonneg (Int.emod_nonneg _ (by decide))
      have hformat : format true n = inFigures 16 digitChar (n % 4294967296).toNat := by
        simp [format, inFigures]
      have hconverted : converted true n = n % 4294967296 := if_pos rfl
      rw [hformat, hconverted, base, if_pos rfl]
      simpa [minus, hvalue] using hmatches

theorem numerals_lines (writeHex : Bool) (ns : List Int) :
    Numerals (base writeHex) (ns.flatMap (line writeHex)) (ns.map (converted writeHex)) := by
  induction ns with
  | nil => exact .nil fun c hc => nomatch hc
  | cons n ns ih =>
      have hspace : isspace '\n'.toUInt8 = true := by decide
      have hnone : Spaces [] := fun c hc => nomatch hc
      have hmatches : Matches (base writeHex)
          (format writeHex n ++ '\n'.toUInt8 :: ns.flatMap (line writeHex))
          ('\n'.toUInt8 :: ns.flatMap (line writeHex)) (converted writeHex n) :=
        matches_format writeHex n (by simp [hspace])
      rw [List.flatMap_cons, line, List.append_assoc, List.singleton_append, List.map_cons]
      have hcons := Numerals.cons hnone hmatches (ih.cons_space hspace)
      rwa [List.nil_append] at hcons

theorem int32_converted (hlow : -2147483648 ≤ n) (hhigh : n ≤ 2147483647) :
    int32 (converted writeHex n) = n := by
  cases writeHex with
  | false => exact int32_eq hlow hhigh
  | true =>
      have hmod : int32 (n % 4294967296) = int32 n := Int.emod_bmod n 4294967296
      exact hmod.trans (int32_eq hlow hhigh)

theorem map_converted (writeHex : Bool) (array : List Int32) :
    ((array.map Int32.toInt).map (converted writeHex)).map int32 = array.map Int32.toInt := by
  rw [List.map_map, List.map_map]
  apply List.map_congr_left
  intro n _
  have hhigh : n.toInt ≤ 2147483647 := Int.le_of_lt_add_one n.toInt_lt
  exact int32_converted n.le_toInt hhigh

/-- What is written is read back in the same mode, as far as the loop goes on. -/
theorem fscanf_returns_iff (left : List UInt8 → List UInt8) (writeHex : Bool) (numbers : Nat → Int)
    (array : List Int32) {file : List UInt8}
    (hfile : writeNumbers (array.map Int32.toInt) array.length writeHex = some file) :
    Returns left writeHex numbers file array ↔
      array.length < 100 ∨ (writeHex = true ∧ array.length ≤ INT_MAX) := by
  have hlines : file = (array.map Int32.toInt).flatMap (line writeHex) := by
    have hwritten := writeNumbers_append (array.map Int32.toInt) [] writeHex
    rw [List.append_nil, List.length_map, hfile] at hwritten
    exact Option.some.inj hwritten
  have hns := numerals_lines writeHex (array.map Int32.toInt)
  rw [← hlines] at hns
  have hlimit : array.length < limit (!writeHex) ↔
      array.length < 100 ∨ (writeHex = true ∧ array.length ≤ INT_MAX) := by
    unfold limit INT_MAX
    cases writeHex with
    | false => simp
    | true =>
        simp only [Bool.not_true, Bool.false_eq_true, if_false, true_and]
        omega
  have hbase : base writeHex ≤ 36 := by cases writeHex <;> decide
  have hloop : readNumbers left writeHex numbers (file.length + 1) (some file) =
      readLoop left (base writeHex) (!writeHex) (file.length + 1) file ⟨numbers, 0, 0, []⟩ := by
    cases writeHex <;> rfl
  rw [← hlimit, Returns, hloop]
  constructor
  · rintro ⟨r, hrun, -⟩
    obtain ⟨k, -, hresult, hbelow, -⟩ := readLoop_returned hbase (running_start numbers) hrun
    simp only [Nat.zero_add, Int.natCast_inj] at hresult hbelow
    omega
  · intro hlt
    have hcount : (⟨numbers, 0, 0, []⟩ : Input).count +
        ((array.map Int32.toInt).map (converted writeHex)).length < limit (!writeHex) := by
      simpa using hlt
    let r := readAll numbers ((array.map Int32.toInt).map (converted writeHex))
    have hrun : readLoop left (base writeHex) (!writeHex) (file.length + 1) file
        ⟨numbers, 0, 0, []⟩ = some (.returned array.length r) := by
      rw [readLoop_numerals hbase hns (running_start numbers) hcount
        (Nat.lt_succ_of_le hns.length_le)]
      simp [r, readAll]
    obtain ⟨-, harray⟩ := foldl_read_array ⟨numbers, 0, 0, []⟩
      ((array.map Int32.toInt).map (converted writeHex))
    rw [map_converted, List.length_map, List.length_map] at harray
    refine ⟨r, hrun, ?_⟩
    rw [List.range_eq_range']
    exact harray

/-- `ffffffff` and `5` -/
theorem minusOneFive_returns :
    Returns id true (fun _ => 0) [102, 102, 102, 102, 102, 102, 102, 102, 10, 53, 10] [-1, 5] :=
  (fscanf_returns_iff id true (fun _ => 0) [-1, 5] (by decide +kernel)).mpr (Or.inl (by decide))

end RoundTrip

end CompOrg.SortFile
