import CompOrg.Lib.Numerals
import CompOrg.Lib.Words

/-! # `fscanf` with one integer conversion

A conversion skips white space and reads the longest item that a numeral can begin with.
It matches where this item is a numeral. The items that match one after the other are the
numerals of a stream; a stream in which some conversion fails has none.
-/

namespace CompOrg

def isDigit (base : Nat) (c : UInt8) : Bool := digitValue c < base

def digitsValue (base : Nat) (digits : List UInt8) : Nat :=
  digits.foldl (fun n c => n * base + digitValue c) 0

/-- The prefix that base 16 allows in front of `s`. It is read wherever it stands. -/
inductive Front (base : Nat) : List UInt8 → List UInt8 → Prop
  | none {s} : (base = 16 → hexPrefixed s = false) → Front base [] s
  | hex {front s} : base = 16 → front.length = 2 → hexPrefixed front = true → Front base front s

/-- The stream begins with a numeral of `n`, and `rest` is behind it. -/
def Matches (base : Nat) (s rest : List UInt8) (n : Int) : Prop :=
  ∃ sign f front digits, s = sign ++ (front ++ (digits ++ rest)) ∧ Sign sign f ∧
    Front base front (digits ++ rest) ∧ digits ≠ [] ∧ (∀ c ∈ digits, isDigit base c = true) ∧
    (∀ c ∈ rest.head?, isDigit base c = false) ∧ n = f (digitsValue base digits)

/-- The stream consists of the numerals of `ns`, with white space before and behind them. -/
inductive Numerals (base : Nat) : List UInt8 → List Int → Prop
  | nil {spaces} : Spaces spaces → Numerals base spaces []
  | cons {spaces s rest n ns} : Spaces spaces → Matches base s rest n → Numerals base rest ns →
      Numerals base (spaces ++ s) (n :: ns)

/-! ## The conversion -/

/-- What `fscanf` returns: 1 with the number it stores, 0, or `EOF`. -/
inductive Conversion
  | matched (n : Int) (rest : List UInt8)
  | failed
  | eof

def unsignedItem (base : Nat) (s : List UInt8) : Option (Int × List UInt8) :=
  let s := if base = 16 ∧ hexPrefixed s = true then s.drop 2 else s
  if s.takeWhile (isDigit base) = [] then none
  else some (digitsValue base (s.takeWhile (isDigit base)), s.dropWhile (isDigit base))

def item (base : Nat) : List UInt8 → Option (Int × List UInt8)
  | [] => none
  | c :: cs =>
      if c = '-'.toUInt8 then (unsignedItem base cs).map (Prod.map Int.neg id)
      else if c = '+'.toUInt8 then unsignedItem base cs
      else unsignedItem base (c :: cs)

def fscanf (base : Nat) (s : List UInt8) : Conversion :=
  if s.dropWhile isspace = [] then .eof
  else
    match item base (s.dropWhile isspace) with
    | some (n, rest) => .matched n rest
    | none => .failed

section Fscanf

variable {base : Nat} {s rest spaces front digits : List UInt8} {n : Int} {ns : List Int}
  {c : UInt8}

/-! ## Finding the item -/

theorem digitValue_of_lt (h : c < '0'.toUInt8) : digitValue c = 36 := by
  have hzero : ¬ '0'.toUInt8 ≤ c := UInt8.not_le.mpr h
  have hlower : ¬ 'a'.toUInt8 ≤ c := fun hle =>
    hzero (UInt8.le_trans (show '0'.toUInt8 ≤ 'a'.toUInt8 by decide) hle)
  have hupper : ¬ 'A'.toUInt8 ≤ c := fun hle =>
    hzero (UInt8.le_trans (show '0'.toUInt8 ≤ 'A'.toUInt8 by decide) hle)
  simp [digitValue, hzero, hlower, hupper]

theorem zero_le_of_isDigit (hbase : base ≤ 36) (h : isDigit base c = true) : '0'.toUInt8 ≤ c := by
  by_contra hlt
  have hvalue := digitValue_of_lt (UInt8.not_le.mp hlt)
  simp only [isDigit, hvalue, decide_eq_true_eq] at h
  omega

/-- A character from `0` on is neither white space nor a sign. -/
theorem ne_of_zero_le (h : '0'.toUInt8 ≤ c) :
    isspace c = false ∧ c ≠ '-'.toUInt8 ∧ c ≠ '+'.toUInt8 := by
  have hne : ∀ b : UInt8, b < '0'.toUInt8 → c ≠ b := fun b hb heq => by
    rw [heq] at h
    exact absurd hb (UInt8.not_lt.mpr h)
  refine ⟨?_, hne _ (by decide), hne _ (by decide)⟩
  have hspace := hne ' '.toUInt8 (by decide)
  have hhigh : ¬ c ≤ 13 := fun hle => absurd (UInt8.le_trans h hle) (by decide)
  simp [isspace, hspace, hhigh]

theorem hexPrefixed_append (hlen : front.length = 2) (s : List UInt8) :
    hexPrefixed (front ++ s) = hexPrefixed front := by
  rw [hexPrefixed, hexPrefixed, List.take_append_of_le_length (by omega)]

theorem exists_of_hexPrefixed (h : hexPrefixed s = true) : ∃ c cs, s = '0'.toUInt8 :: c :: cs := by
  match s with
  | [] => cases h
  | [c] => simp [hexPrefixed] at h
  | c :: d :: cs =>
      simp only [hexPrefixed, List.take_succ_cons, List.take_zero, Bool.or_eq_true,
        beq_iff_eq, List.cons.injEq] at h
      rcases h with ⟨rfl, -⟩ | ⟨rfl, -⟩
      · exact ⟨d, cs, rfl⟩
      · exact ⟨d, cs, rfl⟩

/-- A numeral begins with its prefix or a digit, which is no sign. -/
theorem Front.head (hfront : Front base front (digits ++ rest)) (hbase : base ≤ 36)
    (hne : digits ≠ []) (hdigits : ∀ c ∈ digits, isDigit base c = true) :
    ∃ c cs, front ++ (digits ++ rest) = c :: cs ∧ '0'.toUInt8 ≤ c := by
  cases hfront with
  | none =>
      obtain ⟨c, cs, rfl⟩ := List.exists_cons_of_ne_nil hne
      exact ⟨c, cs ++ rest, rfl, zero_le_of_isDigit hbase (hdigits c List.mem_cons_self)⟩
  | hex _ _ hhex =>
      obtain ⟨c, cs, rfl⟩ := exists_of_hexPrefixed hhex
      exact ⟨_, c :: cs ++ (digits ++ rest), rfl, by decide⟩

theorem unsignedItem_front (hfront : Front base front (digits ++ rest)) (hne : digits ≠ [])
    (hdigits : ∀ c ∈ digits, isDigit base c = true)
    (hrest : ∀ c ∈ rest.head?, isDigit base c = false) :
    unsignedItem base (front ++ (digits ++ rest)) =
      some ((digitsValue base digits : Int), rest) := by
  have hdrop : (if base = 16 ∧ hexPrefixed (front ++ (digits ++ rest)) = true
      then (front ++ (digits ++ rest)).drop 2 else front ++ (digits ++ rest)) =
        digits ++ rest := by
    cases hfront with
    | none hno =>
        rw [List.nil_append, if_neg]
        rintro ⟨hbase, hhex⟩
        rw [hno hbase] at hhex
        cases hhex
    | hex hbase hlen hhex =>
        rw [hexPrefixed_append hlen, if_pos ⟨hbase, hhex⟩, List.drop_left' hlen]
  simp only [unsignedItem, hdrop, takeWhile_run hdigits hrest, dropWhile_run hdigits hrest,
    if_neg hne]

theorem unsignedItem_some (h : unsignedItem base s = some (n, rest)) :
    ∃ front digits, s = front ++ (digits ++ rest) ∧ Front base front (digits ++ rest) ∧
      digits ≠ [] ∧ (∀ c ∈ digits, isDigit base c = true) ∧
      (∀ c ∈ rest.head?, isDigit base c = false) ∧ n = digitsValue base digits := by
  obtain ⟨front, u, hs, hfront, hu⟩ : ∃ front u, s = front ++ u ∧ Front base front u ∧
      (if base = 16 ∧ hexPrefixed s = true then s.drop 2 else s) = u := by
    by_cases hhex : base = 16 ∧ hexPrefixed s = true
    · obtain ⟨c, cs, rfl⟩ := exists_of_hexPrefixed hhex.2
      exact ⟨['0'.toUInt8, c], cs, rfl, .hex hhex.1 rfl hhex.2, if_pos hhex⟩
    · refine ⟨[], s, rfl, .none fun hbase => ?_, if_neg hhex⟩
      rw [← Bool.not_eq_true]
      exact fun h => hhex ⟨hbase, h⟩
  simp only [unsignedItem, hu] at h
  split at h
  next => cases h
  next hne =>
    obtain ⟨rfl, rfl⟩ := Prod.mk.inj (Option.some.inj h)
    refine ⟨front, u.takeWhile (isDigit base), ?_, ?_, hne, ?_, head_dropWhile _ u, rfl⟩
    · rw [List.takeWhile_append_dropWhile, hs]
    · rwa [List.takeWhile_append_dropWhile]
    · exact fun c hc => List.mem_takeWhile_imp hc

theorem matches_iff (hbase : base ≤ 36) : Matches base s rest n ↔ item base s = some (n, rest) := by
  constructor
  · rintro ⟨sign, f, front, digits, rfl, hsign, hfront, hne, hdigits, hrest, rfl⟩
    have hitem := unsignedItem_front hfront hne hdigits hrest
    cases hsign with
    | none =>
        obtain ⟨c, cs, hcs, hc⟩ := hfront.head hbase hne hdigits
        obtain ⟨-, hminus, hplus⟩ := ne_of_zero_le hc
        rw [List.nil_append, hcs, item, if_neg hminus, if_neg hplus, ← hcs]
        exact hitem
    | plus =>
        rw [List.singleton_append, item, if_neg (by decide), if_pos rfl]
        exact hitem
    | minus =>
        rw [List.singleton_append, item, if_pos rfl, hitem]
        rfl
  · intro h
    cases s with
    | nil => cases h
    | cons c cs =>
        rw [item] at h
        split at h
        next hc =>
          obtain ⟨⟨m, u⟩, hm, heq⟩ := Option.map_eq_some_iff.mp h
          obtain ⟨rfl, rfl⟩ := Prod.mk.inj heq
          obtain ⟨front, digits, rfl, hfront, hne, hdigits, hrest, rfl⟩ := unsignedItem_some hm
          exact ⟨_, _, front, digits, by rw [hc]; rfl, .minus, hfront, hne, hdigits, hrest, rfl⟩
        next =>
          split at h
          next hc =>
            obtain ⟨front, digits, rfl, hfront, hne, hdigits, hrest, rfl⟩ := unsignedItem_some h
            exact ⟨_, _, front, digits, by rw [hc]; rfl, .plus, hfront, hne, hdigits, hrest, rfl⟩
          next =>
            obtain ⟨front, digits, hs, hfront, hne, hdigits, hrest, rfl⟩ := unsignedItem_some h
            exact ⟨_, _, front, digits, hs, .none, hfront, hne, hdigits, hrest, rfl⟩

/-! ## One call -/

theorem Matches.head (h : Matches base s rest n) (hbase : base ≤ 36) :
    s ≠ [] ∧ ∀ c ∈ s.head?, isspace c = false := by
  obtain ⟨sign, f, front, digits, rfl, hsign, hfront, hne, hdigits, -, -⟩ := h
  cases hsign with
  | none =>
      obtain ⟨c, cs, hcs, hc⟩ := hfront.head hbase hne hdigits
      rw [List.nil_append, hcs]
      refine ⟨List.cons_ne_nil _ _, fun d hd => ?_⟩
      obtain rfl := Option.some.inj hd
      exact (ne_of_zero_le hc).1
  | plus | minus =>
      refine ⟨List.cons_ne_nil _ _, fun d hd => ?_⟩
      obtain rfl := Option.some.inj hd
      decide

theorem fscanf_spaces (h : Spaces s) : fscanf base s = .eof := if_pos (dropWhile_nil_iff.mpr h)

theorem fscanf_numeral (hbase : base ≤ 36) (hspaces : Spaces spaces)
    (h : Matches base s rest n) : fscanf base (spaces ++ s) = .matched n rest := by
  obtain ⟨hne, hhead⟩ := h.head hbase
  rw [fscanf, dropWhile_spaces hspaces hhead, if_neg hne, (matches_iff hbase).mp h]

/-- White space, a sign, a prefix and a digit, with a sign behind. -/
example : fscanf 16 [' '.toUInt8, '-'.toUInt8, '0'.toUInt8, 'x'.toUInt8, 'F'.toUInt8,
    '+'.toUInt8] = .matched (-15) ['+'.toUInt8] := rfl

theorem spaces_of_eof (h : fscanf base s = .eof) : Spaces s := by
  unfold fscanf at h
  split at h
  next hnil => exact dropWhile_nil_iff.mp hnil
  next => split at h <;> cases h

theorem matches_of_matched (hbase : base ≤ 36) (h : fscanf base s = .matched n rest) :
    ∃ spaces u, s = spaces ++ u ∧ Spaces spaces ∧ Matches base u rest n := by
  unfold fscanf at h
  split at h
  next => cases h
  next =>
    split at h
    next m u hitem =>
      obtain ⟨rfl, rfl⟩ := Conversion.matched.inj h
      exact ⟨_, _, List.takeWhile_append_dropWhile.symm, takeWhile_spaces s,
        (matches_iff hbase).mpr hitem⟩
    next => cases h

/-! ## Streams -/

theorem Matches.length_lt (h : Matches base s rest n) : rest.length < s.length := by
  obtain ⟨sign, f, front, digits, rfl, -, -, hne, -, -, -⟩ := h
  have hpos := List.length_pos_iff.mpr hne
  simp only [List.length_append]
  omega

/-- A conversion that matches, and the numerals behind it. -/
theorem Numerals.of_matched (hbase : base ≤ 36) (h : fscanf base s = .matched n rest)
    (hns : Numerals base rest ns) : Numerals base s (n :: ns) := by
  obtain ⟨spaces, u, rfl, hspaces, hmatches⟩ := matches_of_matched hbase h
  exact .cons hspaces hmatches hns

theorem Numerals.not_failed (h : Numerals base s ns) (hbase : base ≤ 36) :
    fscanf base s ≠ .failed := by
  cases h with
  | nil hspaces => simp [fscanf_spaces hspaces]
  | cons hspaces hmatches _ => simp [fscanf_numeral hbase hspaces hmatches]

theorem Numerals.cons_space (hc : isspace c = true) (h : Numerals base s ns) :
    Numerals base (c :: s) ns := by
  have hcons {spaces : List UInt8} (hspaces : Spaces spaces) : Spaces (c :: spaces) := by
    intro d hd
    rcases List.mem_cons.mp hd with rfl | hd
    · exact hc
    · exact hspaces d hd
  cases h with
  | nil hspaces => exact .nil (hcons hspaces)
  | cons hspaces hmatches hns => exact .cons (hcons hspaces) hmatches hns

/-- A whole word matches in front of white space as well. -/
theorem Matches.append (hbase : base ≤ 36) (hne : base ≠ 16) (h : Matches base s [] n)
    (hrest : ∀ c ∈ rest.head?, isspace c = true) : Matches base (s ++ rest) rest n := by
  obtain ⟨sign, f, front, digits, rfl, hsign, hfront, hdigits, hall, -, hn⟩ := h
  cases hfront with
  | none =>
      refine ⟨sign, f, [], digits, by simp, hsign, .none fun h => (hne h).elim, hdigits, hall,
        fun c hc => ?_, hn⟩
      rw [← Bool.not_eq_true]
      intro hdigit
      have hspace := (ne_of_zero_le (zero_le_of_isDigit hbase hdigit)).1
      rw [hrest c hc] at hspace
      cases hspace
  | hex h => exact (hne h).elim

/-- A file whose words are numerals. -/
theorem numerals_of_words (hbase : base ≤ 36) (hne : base ≠ 16) (s : List UInt8)
    (h : List.Forall₂ (fun w n => Matches base w [] n) (Words.words isspace s) ns) :
    Numerals base s ns := by
  induction s using Words.word_induction isspace generalizing ns with
  | nil =>
      cases h
      exact .nil fun c hc => nomatch hc
  | skip c s hc ih =>
      rw [Words.words_cons_sep hc] at h
      exact (ih h).cons_space hc
  | word c s hc ih =>
      rw [Words.words_cons hc] at h
      cases h with
      | cons hword hrest =>
          have hend : ∀ d ∈ ((c :: s).dropWhile fun b => !isspace b).head?, isspace d = true := by
            intro d hd
            simpa using head_dropWhile (fun b => !isspace b) (c :: s) d hd
          have hmatches := hword.append hbase hne hend
          rw [List.takeWhile_append_dropWhile] at hmatches
          have hnone : Spaces [] := fun _ h => nomatch h
          exact .cons hnone hmatches (ih hrest)

theorem Numerals.length_le (h : Numerals base s ns) : ns.length ≤ s.length := by
  induction h with
  | nil => exact Nat.zero_le _
  | cons _ hmatches _ ih =>
      have hlt := hmatches.length_lt
      simp only [List.length_cons, List.length_append]
      omega

end Fscanf

end CompOrg
