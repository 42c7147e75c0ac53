import CompOrg.FileIO.Bounds
import CompOrg.FileIO.Delivery
import CompOrg.FileIO.Writer
import CompOrg.Lib.Figures

/-! # Reading back what was written

`readNumbers` on a file of `writeNumbers` with the same flag. The numerals that `str` has
room for come back as the numbers they were; the least integer is written as something else,
and a numeral of ten characters leaves no room for the terminating zero.
-/

namespace CompOrg.FileIO

open Words

/-- What stands on the line of a number. The figure of the least integer is that of its
negative remainder. -/
def text (writeHex : Bool) (n : Int) : List UInt8 :=
  if n = INT_MIN then ['-'.toUInt8, digitChar writeHex (INT_MIN.tmod (base writeHex))]
  else minus (decide (n < 0)) ++ inFigures (base writeHex) figure n.natAbs

/-- The numbers that are read back. -/
def ReadsBack (writeHex : Bool) (n : Int) : Prop :=
  n ≠ INT_MIN ∧ (writeHex = false → -100000000 < n ∧ n < 1000000000)

instance (writeHex : Bool) (n : Int) : Decidable (ReadsBack writeHex n) :=
  inferInstanceAs (Decidable (_ ∧ _))

section Text

variable {writeHex : Bool} {n : Int} {w : Writer} {array : List Int32}

theorem figures_figure (writeHex : Bool) : Figures (base writeHex) figure := by
  cases writeHex with
  | false => exact (by decide : ∀ d < 10, digitValue (figure d) = d)
  | true => exact (by decide : ∀ d < 16, digitValue (figure d) = d)

theorem base_le (writeHex : Bool) : base writeHex ≤ 33 := by
  cases writeHex <;> decide

theorem encode_eq_text (hn : n ≠ INT_MIN) : encode writeHex n = text writeHex n ++ ['\n'.toUInt8] := by
  rw [text, if_neg hn, encode, sign, minus]
  by_cases h : n < 0
  · simp [h, inFigures]
  · simp [h, inFigures]

theorem writeNumber_text (writeHex : Bool) (hlow : INT_MIN ≤ n) (hhigh : n < 2147483648)
    (hsign : w.useSign = false) :
    ∃ buf, writeNumber writeHex w n =
      some ⟨buf, false, w.file ++ (text writeHex n ++ ['\n'.toUInt8])⟩ := by
  by_cases hn : n = INT_MIN
  · subst hn
    let c := digitChar writeHex (INT_MIN.tmod (base writeHex))
    have habs : (if INT_MIN < 0 then abs INT_MIN else INT_MIN) = INT_MIN := by decide
    have hloop : digitLoop writeHex 32 INT_MIN 255 w.buf =
        some (254, Function.update w.buf 255 c) := by
      cases writeHex <;> rfl
    refine ⟨Function.update w.buf 255 c, ?_⟩
    simp only [writeNumber, habs, hloop]
    simp [written, text, c]
  · have hlow' : -2147483648 < n := lt_of_le_of_ne hlow (Ne.symm hn)
    obtain ⟨buf, hrun⟩ := writeNumber_encode writeHex hlow' hhigh hsign
    exact ⟨buf, by rw [hrun, encode_eq_text hn]⟩

theorem writeLoop_text (writeHex : Bool) (array : List Int32) (hsign : w.useSign = false) :
    ∃ buf, writeLoop writeHex array w = some ⟨buf, false, w.file ++
      (array.map fun n => text writeHex n.toInt).flatMap fun w => w ++ ['\n'.toUInt8]⟩ := by
  induction array generalizing w with
  | nil => exact ⟨w.buf, by simp [writeLoop, ← hsign]⟩
  | cons n array ih =>
      obtain ⟨buf, hrun⟩ := writeNumber_text writeHex n.le_toInt n.toInt_lt hsign
      obtain ⟨buf', hloop⟩ :=
        ih (w := ⟨buf, false, w.file ++ (text writeHex n.toInt ++ ['\n'.toUInt8])⟩) rfl
      refine ⟨buf', ?_⟩
      simp [writeLoop, hrun, hloop]

theorem writeNumbers_text (writeHex : Bool) (buf : Int → UInt8) (array : List Int32) :
    writeNumbers writeHex buf array =
      some ((array.map fun n => text writeHex n.toInt).flatMap fun w => w ++ ['\n'.toUInt8]) := by
  obtain ⟨buf', hrun⟩ := writeLoop_text (w := ⟨buf, false, []⟩) writeHex array rfl
  rw [writeNumbers, hrun]
  rfl

/-! ## The words of the file -/

theorem not_isBlank_of_isDigit {b : Nat} {c : UInt8} (hb : b ≤ 36) (h : isDigit b c = true) :
    isBlank c = false := by
  have hzero := zero_le_of_isDigit hb h
  have hne : ∀ d : UInt8, d < '0'.toUInt8 → c ≠ d := fun d hd heq => by
    rw [heq] at hzero
    exact absurd hd (UInt8.not_lt.mpr hzero)
  have hspace := hne ' '.toUInt8 (by decide)
  have hnewline := hne '\n'.toUInt8 (by decide)
  have htab := hne '\t'.toUInt8 (by decide)
  simp [isBlank, hspace, hnewline, htab]

theorem text_word (writeHex : Bool) (n : Int) :
    text writeHex n ≠ [] ∧ ∀ c ∈ text writeHex n, isBlank c = false := by
  have hminus : isBlank '-'.toUInt8 = false := by decide
  unfold text
  split
  · refine ⟨List.cons_ne_nil _ _, List.forall_mem_cons.mpr ⟨hminus, ?_⟩⟩
    rw [List.forall_mem_singleton]
    cases writeHex <;> decide
  · have hdigits := (figures_figure writeHex).isDigit (n := n.natAbs) (one_lt_base writeHex)
    have hbase := base_le writeHex
    constructor
    · simp [inFigures_ne_nil]
    · intro c hc
      rcases List.mem_append.mp hc with hc | hc
      · unfold minus at hc
        split at hc
        · rw [List.mem_singleton.mp hc]
          exact hminus
        · cases hc
      · exact not_isBlank_of_isDigit (by omega) (hdigits c hc)

theorem words_text (writeHex : Bool) (array : List Int32) :
    words isBlank ((array.map fun n => text writeHex n.toInt).flatMap
      fun w => w ++ ['\n'.toUInt8]) = array.map fun n => text writeHex n.toInt := by
  apply words_lines _ (by decide)
  intro w hw
  obtain ⟨n, -, rfl⟩ := List.mem_map.mp hw
  exact text_word writeHex n.toInt

/-! ## Numbers and words -/

theorem toLong_eq (hlow : -2147483648 < n) (hhigh : n < 2147483648) :
    toLong (decide (n < 0)) n.natAbs = n := by
  unfold toLong
  by_cases h : n < 0
  · simp only [h, decide_true, if_true]
    omega
  · simp only [h, decide_false, Bool.false_eq_true, if_false]
    omega

/-- The hexadecimal prefix is never written. -/
theorem prefix_notMem (n : Int) :
    'x'.toUInt8 ∉ minus (decide (n < 0)) ++ inFigures (base true) figure n.natAbs := by
  intro hx
  rcases List.mem_append.mp hx with hx | hx
  · unfold minus at hx
    split at hx
    · exact absurd (List.mem_singleton.mp hx) (by decide)
    · cases hx
  · have hdigit := (figures_figure true).isDigit (one_lt_base true) _ hx
    exact (isDigit_ne_letter (base_le true) hdigit).1 rfl

/-- A word is read as its number unless it stands for the least integer. -/
theorem toInteger_text (hlow : INT_MIN ≤ n) (hhigh : n < 2147483648) :
    toInteger writeHex (text writeHex n) = n ↔ n ≠ INT_MIN := by
  constructor
  · rintro h rfl
    revert h
    cases writeHex <;> decide +kernel
  · intro hn
    have hlow' : -2147483648 < n := lt_of_le_of_ne hlow (Ne.symm hn)
    have hstrtol : strtol (minus (decide (n < 0)) ++ inFigures (base writeHex) figure n.natAbs)
        (base writeHex) = toLong (decide (n < 0)) n.natAbs :=
      (figures_figure writeHex).strtol (one_lt_base writeHex) (base_le writeHex)
    rw [toLong_eq hlow' hhigh] at hstrtol
    have hint : int32 n = n := int32_eq hlow (by omega)
    rw [text, if_neg hn]
    cases writeHex with
    | false =>
        rw [toInteger, if_neg (by decide), atoi]
        exact (congrArg int32 hstrtol).trans hint
    | true =>
        rw [toInteger, if_pos rfl, if_neg]
        · exact (congrArg int32 hstrtol).trans hint
        · intro hmarked
          simp only [Bool.and_eq_true, beq_iff_eq] at hmarked
          exact prefix_notMem n (List.mem_of_getElem? hmarked.2)

theorem length_text_le_iff (hn : n ≠ INT_MIN) (hlow : INT_MIN ≤ n) (hhigh : n < 2147483648) :
    (text writeHex n).length ≤ 9 ↔ ReadsBack writeHex n := by
  have hwidth (k : Nat) (hk : 0 < k) :
      (inFigures (base writeHex) figure n.natAbs).length ≤ k ↔ n.natAbs < base writeHex ^ k := by
    rw [inFigures, List.length_map]
    exact Positional.length_numeral_le_iff (one_lt_base writeHex) hk
  have hlow' : -2147483648 ≤ n := hlow
  rw [text, if_neg hn, ReadsBack, and_iff_right hn, List.length_append, minus]
  by_cases h : n < 0
  · simp only [h, decide_true, if_true, List.length_singleton]
    rw [show 1 + (inFigures (base writeHex) figure n.natAbs).length ≤ 9 ↔
      (inFigures (base writeHex) figure n.natAbs).length ≤ 8 by omega, hwidth 8 (by decide)]
    cases writeHex with
    | false =>
        simp only [base, Bool.false_eq_true, if_false, true_imp_iff]
        omega
    | true =>
        simp only [base, if_true, Bool.true_eq_false, false_imp_iff, iff_true]
        omega
  · simp only [h, decide_false, Bool.false_eq_true, if_false, List.length_nil, Nat.zero_add]
    rw [hwidth 9 (by decide)]
    cases writeHex with
    | false =>
        simp only [base, Bool.false_eq_true, if_false, true_imp_iff]
        omega
    | true =>
        simp only [base, if_true, Bool.true_eq_false, false_imp_iff, iff_true]
        omega

/-! ## The round trip -/

/-- The numbers come back, and no access has left its array. -/
def Returns (array : List Int32) (result : Option (Int × Reader)) : Prop :=
  ∃ r, result = some r ∧ AllWithin r.2.accesses ∧ r.1 = array.length ∧
    stored r = array.map Int32.toInt

/-- What `writeNumbers` writes for an array, `readNumbers` returns in the same mode, exactly
when every number fits, every piece ends with a line, and the numbers are not too many for
an `int`. -/
theorem returns_iff (writeHex : Bool) (buf : Int → UInt8) (array : List Int32)
    {file : List UInt8} (hfile : writeNumbers writeHex buf array = some file) (d : Chunks file)
    (m : Fresh) :
    Returns array (readNumbers writeHex m (some d.pieces)) ↔
      (∀ n ∈ array, ReadsBack writeHex n.toInt) ∧
      (∀ piece ∈ d.pieces, ∀ c ∈ piece.getLast?, isBlank c = true) ∧
      array.length < capacity := by
  have hwords : words isBlank file = array.map fun n => text writeHex n.toInt := by
    rw [writeNumbers_text, Option.some.injEq] at hfile
    rw [← hfile, words_text]
  have hlength : (words isBlank file).length = array.length := by
    rw [hwords, List.length_map]
  have hstored (hshort : ∀ w ∈ words isBlank file, w.length ≤ 9)
      (hends : ∀ piece ∈ d.pieces, ∀ c ∈ piece.getLast?, isBlank c = true)
      (hcapacity : (words isBlank file).length < capacity) :
      ∃ result, readNumbers writeHex m (some d.pieces) = some result ∧
        stored result = array.map (fun n => toInteger writeHex (text writeHex n.toInt)) ∧
        result.1 = array.length := by
    let f : ShortWords := ⟨file, hshort⟩
    let e : Delivery f := ⟨d.pieces, d.joined, d.sizes⟩
    obtain ⟨result, hread, hstored, hcount⟩ :=
      e.read_words writeHex m (not_splitsWord_of_ends hends) hcapacity
    refine ⟨result, hread, hstored.trans ?_, hcount.trans ?_⟩
    · rw [hwords, List.map_map]
      rfl
    · rw [hlength]
  constructor
  · rintro ⟨r, hr, hwithin, -, hreturned⟩
    obtain ⟨hshort, hends, hcapacity⟩ := (staysInside_iff d writeHex m).mp ⟨r, hr, hwithin⟩
    obtain ⟨result, hresult, hmap, -⟩ := hstored hshort hends hcapacity
    obtain rfl := Option.some.inj (hr.symm.trans hresult)
    rw [hreturned] at hmap
    refine ⟨fun n hn => ?_, hends, by rwa [hlength] at hcapacity⟩
    have hsame : toInteger writeHex (text writeHex n.toInt) = n.toInt :=
      (List.map_inj_left.mp hmap n hn).symm
    have hne := (toInteger_text n.le_toInt n.toInt_lt).mp hsame
    rw [← length_text_le_iff hne n.le_toInt n.toInt_lt]
    apply hshort
    rw [hwords]
    exact List.mem_map_of_mem hn
  · rintro ⟨hfits, hends, hcapacity⟩
    have hshort : ∀ w ∈ words isBlank file, w.length ≤ 9 := by
      intro w hw
      rw [hwords] at hw
      obtain ⟨n, hn, rfl⟩ := List.mem_map.mp hw
      exact (length_text_le_iff (hfits n hn).1 n.le_toInt n.toInt_lt).mpr (hfits n hn)
    rw [← hlength] at hcapacity
    obtain ⟨result, hresult, hmap, hcount⟩ := hstored hshort hends hcapacity
    obtain ⟨r, hr, hwithin⟩ := (staysInside_iff d writeHex m).mpr ⟨hshort, hends, hcapacity⟩
    obtain rfl := Option.some.inj (hr.symm.trans hresult)
    refine ⟨r, hr, hwithin, hcount, hmap.trans ?_⟩
    apply List.map_congr_left
    intro n hn
    exact (toInteger_text n.le_toInt n.toInt_lt).mpr (hfits n hn).1

/-- `-AB` and `4F` in one piece. -/
def twoLines : Chunks [45, 65, 66, 10, 52, 70, 10] :=
  ⟨[[45, 65, 66, 10, 52, 70, 10]], by decide, by decide⟩

theorem twoLines_returns :
    Returns [-171, 79] (readNumbers true ⟨fun _ => 0, fun _ => 0⟩ (some twoLines.pieces)) := by
  have hfits : ∀ n ∈ [(-171 : Int32), 79], ReadsBack true n.toInt := by
    rw [List.forall_mem_cons, List.forall_mem_singleton]
    decide
  have hends : ∀ piece ∈ twoLines.pieces, ∀ c ∈ piece.getLast?, isBlank c = true := by
    simp [twoLines]
    decide
  exact (returns_iff true (fun _ => 0) [-171, 79] (by decide +kernel) twoLines _).mpr
    ⟨hfits, hends, by decide⟩

end Text

end CompOrg.FileIO
