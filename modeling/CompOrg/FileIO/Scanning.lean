import CompOrg.FileIO.Reader
import CompOrg.Lib.Words

/-! # What the scanner stores

One pass over a piece appends the integers of its words, in order. The scanner
holds no more than that: the array up to `count` is the list of integers so far,
and `limit` is determined by its length. `limit + 50` overflows at one length.
-/

namespace CompOrg.FileIO

open Words

variable {width buffLen i fuel : Nat} {buffer : Nat → UInt8} {readHex : Bool} {r : Reader}
  {ns vs : List Int} {result : Option Reader} {f : Reader → Option Reader}

/-! ## Buffers as lists -/

def segment (buffer : Nat → UInt8) (i buffLen : Nat) : List UInt8 :=
  (List.range' i (buffLen - i)).map buffer

theorem segment_cons (hi : i < buffLen) :
    segment buffer i buffLen = buffer i :: segment buffer (i + 1) buffLen := by
  rw [segment, show buffLen - i = buffLen - (i + 1) + 1 by omega, List.range'_succ]
  rfl

theorem segment_nil (hi : buffLen ≤ i) : segment buffer i buffLen = [] := by
  rw [segment, Nat.sub_eq_zero_of_le hi]
  rfl

theorem segment_fill (buffer : Nat → UInt8) (piece : List UInt8) :
    segment (fill buffer piece) 0 piece.length = piece := by
  apply List.ext_getElem
  · simp [segment]
  · intro k hk _
    simp only [segment, List.length_map, List.length_range'] at hk
    simp [segment, fill, List.getElem?_eq_getElem (show k < piece.length by omega)]

/-- A store at the index `n` behind the first `n` elements. -/
theorem map_range_update {α : Type} (f : Nat → α) (n : Nat) (a : α) :
    (List.range (n + 1)).map (Function.update f n a) = (List.range n).map f ++ [a] := by
  rw [List.range_succ, List.map_append]
  congr 1
  · apply List.map_congr_left
    intro k hk
    exact Function.update_of_ne (List.mem_range.mp hk).ne _ _
  · simp

theorem cString_update (str : Nat → UInt8) (k : Nat) (cha : UInt8) :
    cString (Function.update str k cha) (k + 1) = cString str k ++ [cha] :=
  map_range_update str k cha

/-! ## One word -/

/-- From `s` to `t` the loop copies up to the next blank or the end of the piece. -/
structure Copied (buffer : Nat → UInt8) (buffLen : Nat) (s t : WordScan) : Prop where
  str : cString t.str t.lenStr = cString s.str s.lenStr ++
    (segment buffer s.i buffLen).takeWhile fun b => !isBlank b
  rest : segment buffer t.i buffLen = (segment buffer s.i buffLen).dropWhile fun b => !isBlank b
  stores : ∀ k, .storeStr k ∈ t.accesses → .storeStr k ∈ s.accesses ∨ k < t.lenStr

theorem Copied.refl {s : WordScan} (h : s.i < buffLen → isBlank (buffer s.i) = true) :
    Copied buffer buffLen s s := by
  have hsegment : (segment buffer s.i buffLen).takeWhile (fun b => !isBlank b) = [] ∧
      (segment buffer s.i buffLen).dropWhile (fun b => !isBlank b) =
        segment buffer s.i buffLen := by
    by_cases hi : s.i < buffLen
    · simp [segment_cons hi, h hi]
    · simp [segment_nil (not_lt.mp hi)]
  exact ⟨by rw [hsegment.1, List.append_nil], hsegment.2.symm, fun k hk => Or.inl hk⟩

theorem wordLoop_copied {s : WordScan} (hfuel : buffLen - s.i < fuel) (hcha : s.cha = buffer s.i)
    (hj : s.j = s.lenStr) :
    ∃ t, wordLoop buffer buffLen fuel s = some t ∧ s.lenStr ≤ t.lenStr ∧
      Copied buffer buffLen s t := by
  induction fuel generalizing s with
  | zero => omega
  | succ fuel ih =>
      rw [wordLoop]
      split
      next hmore =>
        obtain ⟨hb, hi⟩ : isBlank s.cha = false ∧ s.i < buffLen := by simpa using hmore
        obtain ⟨t, ht, hlen, hstr, hrest, hstores⟩ := ih (s := {
          i := s.i + 1
          j := s.j + 1
          cha := buffer (s.i + 1)
          lenStr := s.lenStr + 1
          str := Function.update s.str s.j s.cha
          accesses := .loadBuffer (s.i + 1) buffLen :: .storeStr s.j :: s.accesses })
          (by simp only; omega) rfl (by simp only [hj])
        simp only at hlen
        refine ⟨t, ht, by omega, ?_, ?_, ?_⟩
        · rw [hstr, hj, cString_update, segment_cons hi, ← hcha, List.takeWhile_cons, hb,
            List.append_assoc]
          rfl
        · rw [hrest, segment_cons hi, ← hcha, List.dropWhile_cons, hb]
          rfl
        · intro k hk
          have hk := hstores k hk
          simp only [List.mem_cons, reduceCtorEq, false_or, Access.storeStr.injEq] at hk
          rcases hk with (rfl | hk) | hk
          · exact Or.inr (by omega)
          · exact Or.inl hk
          · exact Or.inr hk
      next hstop =>
        refine ⟨s, rfl, le_rfl, Copied.refl fun hi => ?_⟩
        rw [← hcha]
        simpa [hi] using hstop

theorem length_cString (str : Nat → UInt8) (lenStr : Nat) :
    (cString str lenStr).length = lenStr := by simp [cString]

/-- A word from its first character on. -/
theorem wordLoop_word (hi : i < buffLen) (hb : isBlank (buffer i) = false)
    (accesses : List Access) :
    ∃ t w, wordLoop buffer buffLen (buffLen + 1) ⟨i, 0, buffer i, 0, fun _ => 0, accesses⟩ =
        some t ∧
      w = cString t.str t.lenStr ∧ i < t.i ∧
      words isBlank (segment buffer i buffLen) =
        w :: words isBlank (segment buffer t.i buffLen) ∧
      ∀ k, .storeStr k ∈ t.accesses → .storeStr k ∈ accesses ∨ k < w.length := by
  obtain ⟨t, ht, -, hstr, hrest, hstores⟩ :
      ∃ t, wordLoop buffer buffLen (buffLen + 1) ⟨i, 0, buffer i, 0, fun _ => 0, accesses⟩ =
        some t ∧ 0 ≤ t.lenStr ∧ Copied buffer buffLen _ t :=
    wordLoop_copied (by simp only; omega) rfl rfl
  simp only at hstr hrest hstores
  refine ⟨t, _, ht, rfl, ?_, ?_, ?_⟩
  · by_contra hle
    have hlen := (List.dropWhile_sublist (l := segment buffer (i + 1) buffLen)
      fun b => !isBlank b).length_le
    rw [segment_cons hi, List.dropWhile_cons, hb] at hrest
    have heq := congrArg List.length hrest
    simp only [segment, List.length_map, List.length_range', Bool.not_false, if_true] at hlen heq
    omega
  · rw [hstr, hrest, segment_cons hi, words_cons hb]
    rfl
  · rwa [length_cString]

/-! ## The list of integers -/

/-- The length at which `limit + 50` is out of range. -/
def capacity : Nat := 2147483600

/-- The reader has stored `ns`; `str` has been written below `width` only. -/
structure Holds (width : Nat) (r : Reader) (ns : List Int) : Prop where
  array : (List.range ns.length).map r.array = ns
  count : r.count = ns.length
  numberRead : r.numberRead = ns.length
  limit : r.limit = max 100 (50 * (ns.length / 50 + 1))
  fits : ns.length < capacity
  stores : ∀ k, .storeStr k ∈ r.accesses → k < width

/-- The reader that results has stored `ns`, and there is none if `ns` is too long. -/
def Yields (width : Nat) (result : Option Reader) (ns : List Int) : Prop :=
  (∃ r, result = some r ∧ Holds width r ns) ∨ (result = none ∧ capacity ≤ ns.length)

theorem Holds.yields (h : Holds width r ns) : Yields width (some r) ns := Or.inl ⟨r, rfl, h⟩

theorem Yields.bind (h : Yields width result ns)
    (hf : ∀ r, Holds width r ns → Yields width (f r) (ns ++ vs)) :
    Yields width (result.bind f) (ns ++ vs) := by
  rcases h with ⟨r, rfl, hr⟩ | ⟨rfl, hcapacity⟩
  · exact hf r hr
  · right
    rw [List.length_append]
    exact ⟨rfl, by omega⟩

theorem Holds.withAccesses (h : Holds width r ns) {accesses : List Access}
    (hstores : ∀ k, .storeStr k ∈ accesses → k < width) :
    Holds width { r with accesses := accesses } ns :=
  { h with stores := hstores }

/-- The limit behind the store of so many integers. -/
def grown (limit count : Nat) : Nat := limit + 50 * ((count + 50 - limit) / 50)

theorem grown_of_lt {limit count : Nat} (h : count < limit) : grown limit count = limit := by
  unfold grown
  omega

theorem grown_full (limit : Nat) : grown limit limit = limit + 50 := by
  unfold grown
  omega

theorem growLimit_eq {limit count : Nat} (hroom : count < limit) (hint : limit ≤ INT_MAX) :
    growLimit (count + 1) limit =
      if grown limit (count + 1) ≤ INT_MAX then some (grown limit (count + 1)) else none := by
  unfold growLimit
  by_cases hfull : count + 1 = limit
  · rw [if_pos hfull, hfull, grown_full]
    rfl
  · rw [if_neg hfull, grown_of_lt (by omega), if_pos hint]

/-- `realloc` is due where the integers fill the array, and overflows at `capacity`. -/
theorem growLimit_next (h : Holds width r ns) :
    (capacity ≤ ns.length + 1 ∧ growLimit (ns.length + 1) r.limit = none) ∨
      (ns.length + 1 < capacity ∧
        growLimit (ns.length + 1) r.limit = some (max 100 (50 * ((ns.length + 1) / 50 + 1)))) := by
  have hfits := h.fits
  have hlimit := h.limit
  unfold capacity at hfits ⊢
  have hgrown : grown r.limit (ns.length + 1) = max 100 (50 * ((ns.length + 1) / 50 + 1)) := by
    unfold grown
    omega
  rw [growLimit_eq (by omega) (by unfold INT_MAX; omega), hgrown]
  by_cases hcapacity : ns.length + 1 < 2147483600
  · right
    exact ⟨hcapacity, if_pos (by unfold INT_MAX; omega)⟩
  · left
    exact ⟨by omega, if_neg (by unfold INT_MAX; omega)⟩

/-- Where the counters agree, the limit alone decides about the result. -/
theorem storeInteger_eq (heven : r.numberRead = r.count) (hint : r.count + 1 ≤ INT_MAX)
    (integer : Int) :
    storeInteger r integer = (growLimit (r.count + 1) r.limit).map fun limit =>
      { array := Function.update r.array r.count integer
        limit := limit
        count := r.count + 1
        numberRead := r.count + 1
        accesses := .storeArray r.count r.limit :: r.accesses } := by
  rw [storeInteger, heven, addInt_eq_some hint, Option.map_eq_bind]
  rfl

theorem storeInteger_yields (h : Holds width r ns) (integer : Int) :
    Yields width (storeInteger r integer) (ns ++ [integer]) := by
  have hint : ns.length + 1 ≤ INT_MAX := by
    have hfits := h.fits
    unfold capacity at hfits
    unfold INT_MAX
    omega
  have heven : r.numberRead = r.count := h.numberRead.trans h.count.symm
  rw [storeInteger_eq heven (by rwa [h.count]), h.count]
  rcases growLimit_next h with ⟨hcapacity, hnext⟩ | ⟨hcapacity, hnext⟩
  · right
    rw [hnext, List.length_append]
    exact ⟨rfl, hcapacity⟩
  · left
    rw [hnext]
    refine ⟨_, rfl, ?_, ?_, ?_, ?_, ?_, ?_⟩
    · rw [List.length_append, List.length_singleton, map_range_update, h.array]
    · rw [List.length_append, List.length_singleton]
    · rw [List.length_append, List.length_singleton]
    · rw [List.length_append, List.length_singleton]
    · rwa [List.length_append]
    · intro k hk
      exact h.stores k (by simpa using hk)

/-! ## Pieces and files -/

theorem scanLoop_yields (hfuel : buffLen - i < fuel) (h : Holds width r ns)
    (hshort : ∀ w ∈ words isBlank (segment buffer i buffLen), w.length ≤ width) :
    Yields width (scanLoop readHex buffer buffLen fuel i r)
      (ns ++ (words isBlank (segment buffer i buffLen)).map (toInteger readHex)) := by
  induction fuel generalizing i r ns with
  | zero => omega
  | succ fuel ih =>
      rw [scanLoop]
      split
      next hi =>
        rw [segment_cons hi] at hshort ⊢
        have hload : ∀ k, .storeStr k ∈ Access.loadBuffer i buffLen :: r.accesses → k < width :=
          fun k hk => h.stores k (by simpa using hk)
        cases hb : isBlank (buffer i) with
        | true =>
            rw [words_cons_sep hb] at hshort ⊢
            exact ih (by omega) (h.withAccesses hload) hshort
        | false =>
            obtain ⟨t, w, ht, hw, hti, hwords, hstores⟩ :=
              wordLoop_word hi hb (.loadBuffer i buffLen :: r.accesses)
            rw [← segment_cons hi, hwords] at hshort ⊢
            have hcopied : ∀ k, .storeStr k ∈ t.accesses → k < width := by
              intro k hk
              rcases hstores k hk with hk | hk
              · exact hload k hk
              · exact hk.trans_le (hshort w List.mem_cons_self)
            simp only [Bool.not_false, if_true, ht, ← hw, Option.bind_eq_bind, Option.bind_some]
            rw [List.map_cons, ← List.singleton_append, ← List.append_assoc]
            apply (storeInteger_yields (h.withAccesses hcopied) _).bind
            intro r hr
            exact ih (by omega) hr fun v hv => hshort v (List.mem_cons_of_mem _ hv)
      next hi =>
        rw [segment_nil (not_lt.mp hi), words_nil, List.map_nil, List.append_nil]
        exact h.yields

/-- One `read`: earlier contents of the buffer do not matter. -/
theorem scanPiece_yields {piece : List UInt8} (h : Holds width r ns)
    (hshort : ∀ w ∈ words isBlank piece, w.length ≤ width) :
    Yields width (scanLoop readHex (fill buffer piece) piece.length (piece.length + 1) 0 r)
      (ns ++ (words isBlank piece).map (toInteger readHex)) := by
  have hsegment := segment_fill buffer piece
  rw [← hsegment] at hshort
  conv => arg 3; rw [← hsegment]
  exact scanLoop_yields (by omega) h hshort

theorem readLoop_yields {pieces : List (List UInt8)} (hne : ∀ piece ∈ pieces, piece ≠ [])
    (h : Holds width r ns)
    (hshort : ∀ piece ∈ pieces, ∀ w ∈ words isBlank piece, w.length ≤ width) :
    Yields width (readLoop readHex pieces buffer r)
      (ns ++ (pieces.flatMap (words isBlank)).map (toInteger readHex)) := by
  induction pieces generalizing buffer r ns with
  | nil =>
      rw [readLoop, List.flatMap_nil, List.map_nil, List.append_nil]
      exact h.yields
  | cons piece pieces ih =>
      rw [readLoop, if_pos (List.length_pos_iff.mpr (hne piece List.mem_cons_self)),
        List.flatMap_cons, List.map_append, ← List.append_assoc]
      apply (scanPiece_yields h (hshort piece List.mem_cons_self)).bind
      intro r hr
      exact ih (fun p hp => hne p (List.mem_cons_of_mem _ hp)) hr
        fun p hp => hshort p (List.mem_cons_of_mem _ hp)

theorem Fresh.reader_holds (m : Fresh) : Holds width m.reader [] := by
  refine ⟨rfl, rfl, rfl, rfl, by decide, fun k hk => ?_⟩
  cases hk

end CompOrg.FileIO
