import CompOrg.FileIO.Scanning
import CompOrg.Lib.Numerals

/-! # The accesses of the scanner

A word is copied into `str` without a look at its length, and the character behind it is
loaded before the index is compared with `buffLen`. So the accesses are in bounds exactly
for words of nine characters at most, in pieces that end with a blank.
-/

namespace CompOrg.FileIO

open Words

/-- The index is among the bytes of the last `read`, or leaves room in `str` for the
terminating zero. -/
def Access.Within : Access → Prop
  | .loadBuffer i buffLen => i < buffLen
  | .storeStr j => j < 9
  | .storeArray _ _ => True

def AllWithin (accesses : List Access) : Prop := ∀ a ∈ accesses, a.Within

/-- The results of the calls `read(fileDescriptor, buffer, 512)` for a file of any content. -/
structure Chunks (file : List UInt8) where
  pieces : List (List UInt8)
  joined : pieces.flatten = file
  sizes : ∀ piece ∈ pieces, piece ≠ [] ∧ piece.length ≤ 512

def Chunks.StaysInside {file : List UInt8} (d : Chunks file) (readHex : Bool) (m : Fresh) : Prop :=
  ∃ result, readNumbers readHex m (some d.pieces) = some result ∧ AllWithin result.2.accesses

/-- The words of the piece fit into `str`, and none of them ends with the piece. -/
def FitsStr (piece : List UInt8) : Prop :=
  (∀ w ∈ words isBlank piece, w.length ≤ 9) ∧ ∀ c ∈ piece.getLast?, isBlank c = true

section Scan

variable {buffer : Nat → UInt8} {buffLen i k fuel : Nat} {readHex : Bool} {r r' : Reader}
  {s t : WordScan} {access : Access} {accesses : List Access}

@[simp] theorem allWithin_cons :
    AllWithin (access :: accesses) ↔ access.Within ∧ AllWithin accesses :=
  List.forall_mem_cons

@[simp] theorem within_loadBuffer : (Access.loadBuffer i buffLen).Within ↔ i < buffLen := Iff.rfl

@[simp] theorem within_storeStr : (Access.storeStr i).Within ↔ i < 9 := Iff.rfl

@[simp] theorem within_storeArray : (Access.storeArray i k).Within := trivial

/-! ## One word -/

/-- From `s` to `t` the loop has copied `k` characters, none of them blank. -/
structure Advanced (buffer : Nat → UInt8) (buffLen k : Nat) (s t : WordScan) : Prop where
  i : t.i = s.i + k
  j : t.j = s.j + k
  lenStr : t.lenStr = s.lenStr + k
  copied : ∀ b, s.i ≤ b → b < t.i → isBlank (buffer b) = false
  within : AllWithin t.accesses ↔
    AllWithin s.accesses ∧ (0 < k → t.j ≤ 9 ∧ t.i < buffLen)

theorem wordLoop_advanced (hcha : s.cha = buffer s.i)
    (h : wordLoop buffer buffLen fuel s = some t) : ∃ k, Advanced buffer buffLen k s t := by
  induction fuel generalizing s with
  | zero => cases h
  | succ fuel ih =>
      rw [wordLoop] at h
      split at h
      next hmore =>
        obtain ⟨hb, -⟩ : isBlank s.cha = false ∧ s.i < buffLen := by simpa using hmore
        obtain ⟨k, hi, hj, hlen, hcopied, hwithin⟩ := ih rfl h
        simp only at hi hj hlen hcopied
        refine ⟨k + 1, by omega, by omega, by omega, fun b hle hlt => ?_, ?_⟩
        · rcases Nat.eq_or_lt_of_le hle with rfl | hlt'
          · rw [← hcha, hb]
          · exact hcopied b hlt' hlt
        · rw [hwithin]
          simp only [allWithin_cons, within_loadBuffer, within_storeStr]
          constructor
          · rintro ⟨⟨hload, hstore, hs⟩, hk⟩
            refine ⟨hs, fun _ => ?_⟩
            rcases Nat.eq_zero_or_pos k with rfl | hpos
            · omega
            · exact hk hpos
          · rintro ⟨hs, hk⟩
            obtain ⟨hnine, hlt⟩ := hk (Nat.succ_pos k)
            exact ⟨⟨by omega, by omega, hs⟩, fun _ => ⟨hnine, hlt⟩⟩
      next =>
        obtain rfl := Option.some.inj h
        exact ⟨0, rfl, rfl, rfl, fun b hle hlt => by omega, by simp⟩

/-- A word from its first character on. Up to the end of the piece it has the last one. -/
theorem wordLoop_within (hi : i < buffLen) (hb : isBlank (buffer i) = false)
    (accesses : List Access) :
    ∃ t w, wordLoop buffer buffLen (buffLen + 1) ⟨i, 0, buffer i, 0, fun _ => 0, accesses⟩ =
        some t ∧
      words isBlank (segment buffer i buffLen) =
        w :: words isBlank (segment buffer t.i buffLen) ∧
      (AllWithin t.accesses ↔ AllWithin accesses ∧ w.length ≤ 9 ∧ t.i < buffLen) ∧
      (isBlank (buffer (buffLen - 1)) = true → t.i < buffLen) := by
  obtain ⟨t, w, ht, hw, hti, hwords, -⟩ := wordLoop_word hi hb accesses
  obtain ⟨k, hk⟩ := wordLoop_advanced rfl ht
  have hlen : w.length = k := by
    rw [hw, length_cString, hk.lenStr, Nat.zero_add]
  have hpos : 0 < k := by
    have hstart : t.i = i + k := hk.i
    omega
  have hj : t.j = k := hk.j.trans (Nat.zero_add k)
  refine ⟨t, w, ht, hwords, ?_, fun hlast => ?_⟩
  · rw [hk.within, hlen, hj]
    simp only [hpos, true_imp_iff]
  · by_contra hle
    have hcopied := hk.copied (buffLen - 1) (by simp only; omega) (by omega)
    rw [hcopied] at hlast
    cases hlast

/-! ## One piece -/

theorem storeInteger_accesses {integer : Int} (h : storeInteger r integer = some r') :
    r'.accesses = .storeArray r.count r.limit :: r.accesses := by
  simp only [storeInteger, Option.bind_eq_bind, Option.bind_eq_some_iff, Option.pure_def,
    Option.some.injEq] at h
  obtain ⟨_, -, _, -, _, -, rfl⟩ := h
  rfl

/-- The last character of the piece decides about the load behind a word. -/
theorem scanLoop_within (h : scanLoop readHex buffer buffLen fuel i r = some r') :
    AllWithin r'.accesses ↔ AllWithin r.accesses ∧
      (∀ w ∈ words isBlank (segment buffer i buffLen), w.length ≤ 9) ∧
      (i < buffLen → isBlank (buffer (buffLen - 1)) = true) := by
  induction fuel generalizing i r with
  | zero => cases h
  | succ fuel ih =>
      rw [scanLoop] at h
      split at h
      next hi =>
        cases hb : isBlank (buffer i) with
        | true =>
            simp only [hb, Bool.not_true, Bool.false_eq_true, if_false] at h
            have hlast : (i + 1 < buffLen → isBlank (buffer (buffLen - 1)) = true) ↔
                (i < buffLen → isBlank (buffer (buffLen - 1)) = true) := by
              rcases Nat.eq_or_lt_of_le hi with rfl | hlt
              · simp [hb]
              · simp [hi, hlt]
            rw [ih h, segment_cons hi, words_cons_sep hb, hlast]
            simp [hi]
        | false =>
            obtain ⟨t, w, ht, hwords, hword, hlt⟩ :=
              wordLoop_within hi hb (.loadBuffer i buffLen :: r.accesses)
            simp only [hb, Bool.not_false, if_true, ht, Option.bind_eq_bind,
              Option.bind_some, Option.bind_eq_some_iff] at h
            obtain ⟨r₁, hr₁, h⟩ := h
            rw [ih h, storeInteger_accesses hr₁, hwords]
            simp only [allWithin_cons, within_storeArray, hword, within_loadBuffer, hi,
              List.forall_mem_cons, true_and, true_imp_iff]
            constructor
            · rintro ⟨⟨hr, hnine, hlt⟩, hshort, hlast⟩
              exact ⟨hr, ⟨hnine, hshort⟩, hlast hlt⟩
            · rintro ⟨hr, ⟨hnine, hshort⟩, hlast⟩
              exact ⟨⟨hr, hnine, hlt hlast⟩, hshort, fun _ => hlast⟩
      next hi =>
        obtain rfl := Option.some.inj h
        simp [segment_nil (not_lt.mp hi), hi]

theorem getLast?_eq (buffer : Nat → UInt8) {piece : List UInt8} (hne : piece ≠ []) :
    piece.getLast? = some (fill buffer piece (piece.length - 1)) := by
  have hpos := List.length_pos_iff.mpr hne
  rw [List.getLast?_eq_getElem?, fill, List.getElem?_eq_getElem (by omega), Option.getD_some]

theorem scanPiece_within {piece : List UInt8} (hne : piece ≠ [])
    (h : scanLoop readHex (fill buffer piece) piece.length fuel 0 r = some r') :
    AllWithin r'.accesses ↔ AllWithin r.accesses ∧ FitsStr piece := by
  rw [scanLoop_within h, segment_fill, FitsStr, getLast?_eq buffer hne]
  simp [List.length_pos_iff, hne]

/-! ## The whole file -/

theorem readLoop_within {pieces : List (List UInt8)} (hne : ∀ piece ∈ pieces, piece ≠ [])
    (h : readLoop readHex pieces buffer r = some r') :
    AllWithin r'.accesses ↔ AllWithin r.accesses ∧ ∀ piece ∈ pieces, FitsStr piece := by
  induction pieces generalizing buffer r with
  | nil =>
      obtain rfl := Option.some.inj h
      simp
  | cons piece pieces ih =>
      have hpiece := hne piece List.mem_cons_self
      rw [readLoop, if_pos (List.length_pos_iff.mpr hpiece)] at h
      simp only [Option.bind_eq_bind, Option.bind_eq_some_iff] at h
      obtain ⟨r₁, hr₁, h⟩ := h
      rw [ih (fun p hp => hne p (List.mem_cons_of_mem _ hp)) h, scanPiece_within hpiece hr₁,
        List.forall_mem_cons, and_assoc]

end Scan

namespace Chunks

variable {file : List UInt8} (d : Chunks file) (readHex : Bool) (m : Fresh)

/-- The scanner gets through the file unless it has too many words for an `int` limit. -/
theorem readLoop_defined :
    (∃ r, readLoop readHex d.pieces m.buffer m.reader = some r) ↔
      (d.pieces.flatMap (words isBlank)).length < capacity := by
  have hyields : Yields 512 (readLoop readHex d.pieces m.buffer m.reader)
      ((d.pieces.flatMap (words isBlank)).map (toInteger readHex)) := by
    apply readLoop_yields (fun piece hpiece => (d.sizes piece hpiece).1) m.reader_holds
    intro piece hpiece w hw
    obtain ⟨-, -, hpart⟩ := isInfix_of_mem_words hw
    exact hpart.length_le.trans (d.sizes piece hpiece).2
  rcases hyields with ⟨r, hr, hholds⟩ | ⟨hnone, hcapacity⟩
  · have hfits := hholds.fits
    rw [List.length_map] at hfits
    exact ⟨fun _ => hfits, fun _ => ⟨r, hr⟩⟩
  · rw [List.length_map] at hcapacity
    rw [hnone]
    constructor
    · rintro ⟨r, hr⟩
      cases hr
    · intro hlt
      omega

theorem staysInside_iff_pieces :
    d.StaysInside readHex m ↔ (∀ piece ∈ d.pieces, FitsStr piece) ∧
      (d.pieces.flatMap (words isBlank)).length < capacity := by
  have hne : ∀ piece ∈ d.pieces, piece ≠ [] := fun piece hpiece => (d.sizes piece hpiece).1
  have hstart : AllWithin m.reader.accesses := fun a ha => nomatch ha
  rw [← readLoop_defined d readHex m]
  constructor
  · rintro ⟨result, hresult, hwithin⟩
    obtain ⟨r, hr, rfl⟩ := Option.map_eq_some_iff.mp hresult
    exact ⟨((readLoop_within hne hr).mp hwithin).2, r, hr⟩
  · rintro ⟨hfits, r, hr⟩
    exact ⟨_, Option.map_eq_some_iff.mpr ⟨r, hr, rfl⟩,
      (readLoop_within hne hr).mpr ⟨hstart, hfits⟩⟩

end Chunks

/-- The accesses stay inside exactly if every word has nine characters at most, every piece
ends with a blank, and the words are not too many for an `int`. -/
theorem staysInside_iff {file : List UInt8} (d : Chunks file) (readHex : Bool) (m : Fresh) :
    d.StaysInside readHex m ↔
      (∀ w ∈ words isBlank file, w.length ≤ 9) ∧
      (∀ piece ∈ d.pieces, ∀ c ∈ piece.getLast?, isBlank c = true) ∧
      (words isBlank file).length < capacity := by
  rw [d.staysInside_iff_pieces]
  have hwhole (hends : ∀ piece ∈ d.pieces, ∀ c ∈ piece.getLast?, isBlank c = true) :
      d.pieces.flatMap (words isBlank) = words isBlank file := by
    rw [flatMap_words (not_splitsWord_of_ends hends), d.joined]
  constructor
  · rintro ⟨hfits, hcapacity⟩
    have hends := fun piece hpiece => (hfits piece hpiece).2
    rw [hwhole hends] at hcapacity
    refine ⟨fun w hw => ?_, hends, hcapacity⟩
    rw [← hwhole hends, List.mem_flatMap] at hw
    obtain ⟨piece, hpiece, hw⟩ := hw
    exact (hfits piece hpiece).1 w hw
  · rintro ⟨hshort, hends, hcapacity⟩
    rw [hwhole hends]
    refine ⟨fun piece hpiece => ⟨fun w hw => ?_, hends piece hpiece⟩, hcapacity⟩
    apply hshort
    rw [← hwhole hends, List.mem_flatMap]
    exact ⟨piece, hpiece, hw⟩

/-! ## A numeral of ten digits -/

/-- A decimal numeral of a 32-bit integer. -/
def IntNumeral (w : List UInt8) : Prop :=
  ∃ sign f digits, w = sign ++ digits ∧ Sign sign f ∧ Digits digits [] ∧
    -2147483648 ≤ f (decimalValue digits) ∧ f (decimalValue digits) ≤ 2147483647

/-- The characters of `2147483647`. -/
def maxDigits : List UInt8 := [50, 49, 52, 55, 52, 56, 51, 54, 52, 55]

def maxLine : Chunks (maxDigits ++ ['\n'.toUInt8]) :=
  ⟨[maxDigits ++ ['\n'.toUInt8]], by decide, by decide⟩

/-- The last digit takes the place of the terminating zero. -/
theorem maxLine_outside :
    (∀ w ∈ words isBlank (maxDigits ++ ['\n'.toUInt8]), IntNumeral w) ∧
      ¬ maxLine.StaysInside false ⟨fun _ => 0, fun _ => 0⟩ := by
  constructor
  · intro w hw
    have hwords : words isBlank (maxDigits ++ ['\n'.toUInt8]) = [maxDigits] := by decide +kernel
    rw [hwords, List.mem_singleton] at hw
    subst hw
    have hdigits : Digits maxDigits [] := ⟨by simp [maxDigits], by decide +kernel, by simp⟩
    refine ⟨[], id, maxDigits, rfl, .none, hdigits, ?_⟩
    decide +kernel
  · rintro ⟨result, hresult, hwithin⟩
    have hstore : (readNumbers false ⟨fun _ => 0, fun _ => 0⟩ (some maxLine.pieces)).map
        (fun result => decide (.storeStr 9 ∈ result.2.accesses)) = some true := by
      decide +kernel
    rw [hresult, Option.map_some, Option.some.injEq, decide_eq_true_eq] at hstore
    exact Nat.lt_irrefl 9 (hwithin _ hstore)

/-- A word at the end of a piece: the byte behind it is loaded. -/
example : (readNumbers false ⟨fun _ => 0, fun _ => 0⟩ (some [['1'.toUInt8]])).map
    (fun result => decide (.loadBuffer 1 1 ∈ result.2.accesses)) = some true := by
  decide

end CompOrg.FileIO
