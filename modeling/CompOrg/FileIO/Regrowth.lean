import CompOrg.FileIO.Scanning
import Mathlib.Data.Option.Basic

/-! # The array and its allocation

`readNumbers` once more, with the block of memory that `malloc` and `realloc` give it. A
store outside of the block has no result. A block is allocated in the size of pointers
and holds integers, so there is more room than `limit` says.
-/

namespace CompOrg.FileIO

open Words

def sizeofInt : Nat := 4

/-- `sizeof(int *)` -/
def sizeofPointer : Nat := 8

/-- What the scanner takes from a piece: a blank, or a word with the index of its integer. -/
inductive Token
  | separator (cha : UInt8)
  | word (str : List UInt8) (index : Nat)
  deriving DecidableEq

namespace Token

def bytes : Token → List UInt8
  | separator cha => [cha]
  | word str _ => str

def str? : Token → Option (List UInt8)
  | separator _ => none
  | word str _ => some str

def index? : Token → Option Nat
  | separator _ => none
  | word _ index => some index

end Token

/-- The variables of a `Reader`, with the integers that the allocation has room for. -/
structure Scanner where
  block : List Int
  limit : Nat
  count : Nat
  numberRead : Nat
  accesses : List Access

namespace Scanner

/-- `realloc` keeps the integers that fit; `fresh` is the memory behind them. -/
def realloc (fresh : Nat → Int) (block : List Int) (size : Nat) : List Int :=
  (List.range (size / sizeofInt)).map fun k => block[k]?.getD (fresh k)

/-- Add an integer to the array; `fresh` has the new memory for each size. -/
def storeInteger (fresh : Nat → Nat → Int) (s : Scanner) (integer : Int) : Option Scanner := do
  if s.count < s.block.length then
    let block := s.block.set s.count integer
    let accesses := .storeArray s.count s.limit :: s.accesses
    let count ← addInt s.count 1
    let numberRead ← addInt s.numberRead 1
    if numberRead = s.limit then
      let limit ← addInt s.limit 50
      let size := limit * sizeofPointer
      return ⟨realloc (fresh size) block size, limit, count, numberRead, accesses⟩
    else return ⟨block, s.limit, count, numberRead, accesses⟩
  else none

/-- `while (i < buffLen)` -/
def scanLoop (readHex : Bool) (fresh : Nat → Nat → Int) (buffer : Nat → UInt8) (buffLen : Nat) :
    Nat → Nat → Scanner → Option (List Token × Scanner)
  | 0, _, _ => none
  | fuel + 1, i, s =>
      if i < buffLen then
        let accesses := .loadBuffer i buffLen :: s.accesses
        if !isBlank (buffer i) then do
          let w ← wordLoop buffer buffLen (buffLen + 1) ⟨i, 0, buffer i, 0, fun _ => 0, accesses⟩
          let str := cString w.str w.lenStr
          let t ← storeInteger fresh { s with accesses := w.accesses } (toInteger readHex str)
          let (tokens, t) ← scanLoop readHex fresh buffer buffLen fuel w.i t
          return (.word str s.count :: tokens, t)
        else do
          let (tokens, t) ←
            scanLoop readHex fresh buffer buffLen fuel (i + 1) { s with accesses := accesses }
          return (.separator (buffer i) :: tokens, t)
      else some ([], s)

/-- The scan of one piece. -/
def scan (readHex : Bool) (fresh : Nat → Nat → Int) (buffer : Nat → UInt8) (piece : List UInt8) :
    Scanner → Option (List Token × Scanner) :=
  scanLoop readHex fresh (fill buffer piece) piece.length (piece.length + 1) 0

/-- `while ((buffLen = read(..)) > 0)` -/
def readLoop (readHex : Bool) (fresh : Nat → Nat → Int) :
    List (List UInt8) → (Nat → UInt8) → Scanner → Option Scanner
  | [], _, s => some s
  | piece :: pieces, buffer, s =>
      if piece.length > 0 then do
        let (_, s) ← scan readHex fresh buffer piece s
        readLoop readHex fresh pieces (fill buffer piece) s
      else some s

/-- `malloc(100 * sizeof(int *))` -/
def start (array : Nat → Int) : Scanner :=
  ⟨realloc array [] (100 * sizeofPointer), 100, 0, 0, []⟩

/-! ## The invariant -/

/-- What the variables are between two integers. -/
structure Ready (s : Scanner) : Prop where
  even : s.numberRead = s.count
  room : s.count < s.limit
  allocated : s.limit ≤ s.block.length
  int : s.limit ≤ INT_MAX

/-- From `s` to `t` the tokens are taken, and the integers of their words appended. -/
structure Takes (readHex : Bool) (piece : List UInt8) (s : Scanner) (tokens : List Token)
    (t : Scanner) : Prop where
  bytes : tokens.flatMap Token.bytes = piece
  runs : tokens.filterMap Token.str? = words isBlank piece
  blanks : ∀ cha, .separator cha ∈ tokens → isBlank cha = true
  indices : tokens.filterMap Token.index? = List.range' s.count (words isBlank piece).length
  count : t.count = s.count + (words isBlank piece).length
  array : t.block.take t.count =
    s.block.take s.count ++ (words isBlank piece).map (toInteger readHex)

variable {readHex : Bool} {fresh : Nat → Nat → Int} {buffer : Nat → UInt8} {buffLen i fuel : Nat}
  {limit count n m size : Nat} {block : List Int} {s t : Scanner} {tokens : List Token}
  {integer : Int}

theorem grown_grown (h : n ≤ m) : grown (grown limit n) m = grown limit m := by
  unfold grown
  omega

theorem grown_mono (h : n ≤ m) : grown limit n ≤ grown limit m := by
  unfold grown
  omega

theorem Ready.withAccesses (h : s.Ready) (accesses : List Access) :
    Ready { s with accesses := accesses } :=
  ⟨h.even, h.room, h.allocated, h.int⟩

theorem length_realloc (memory : Nat → Int) (block : List Int) (size : Nat) :
    (realloc memory block size).length = size / sizeofInt := by
  rw [realloc, List.length_map, List.length_range]

theorem take_realloc (memory : Nat → Int) (hn : n ≤ block.length) (hsize : n * sizeofInt ≤ size) :
    (realloc memory block size).take n = block.take n := by
  have hfits : n ≤ size / sizeofInt := (Nat.le_div_iff_mul_le (by decide)).mpr hsize
  apply List.ext_getElem
  · rw [List.length_take, List.length_take, length_realloc]
    omega
  · intro k hk _
    rw [List.length_take, length_realloc] at hk
    have hblock : k < block.length := by omega
    simp [realloc, List.getElem?_eq_getElem hblock]

theorem take_set (hcount : count < block.length) (integer : Int) :
    (block.set count integer).take (count + 1) = block.take count ++ [integer] := by
  rw [List.set_eq_take_append_cons_drop, if_pos hcount, List.take_append]
  simp [Nat.min_eq_left hcount.le]

/-! ## One integer -/

/-- From `s` to `t` an integer is appended. -/
structure Stores (integer : Int) (s t : Scanner) : Prop where
  ready : t.Ready
  count : t.count = s.count + 1
  limit : t.limit = grown s.limit (s.count + 1)
  array : t.block.take t.count = s.block.take s.count ++ [integer]
  accesses : t.accesses = .storeArray s.count s.limit :: s.accesses

/-- The store is inside the block, and the next one has room unless `limit` overflows. -/
theorem storeInteger_stores (fresh : Nat → Nat → Int) (h : s.Ready) (integer : Int) :
    (grown s.limit (s.count + 1) ≤ INT_MAX ∧
        ∃ t, storeInteger fresh s integer = some t ∧ Stores integer s t) ∨
      (INT_MAX < grown s.limit (s.count + 1) ∧ storeInteger fresh s integer = none) := by
  obtain ⟨heven, hroom, hallocated, hint⟩ := h
  have hinside : s.count < s.block.length := by omega
  have hnext : addInt s.count 1 = some (s.count + 1) := addInt_eq_some (by omega)
  have hset := take_set hinside integer
  unfold storeInteger
  rw [if_pos hinside, heven, hnext]
  simp only [Option.bind_eq_bind, Option.bind_some]
  by_cases hfull : s.count + 1 = s.limit
  · rw [if_pos hfull, hfull, grown_full]
    by_cases hfits : s.limit + 50 ≤ INT_MAX
    · rw [addInt_eq_some hfits]
      have hsize : (s.limit + 50) * sizeofInt ≤ (s.limit + 50) * sizeofPointer :=
        Nat.mul_le_mul_left _ (by decide)
      have hkept : s.limit * sizeofInt ≤ (s.limit + 50) * sizeofPointer :=
        (Nat.mul_le_mul_right _ (Nat.le_add_right _ _)).trans hsize
      refine Or.inl ⟨hfits, _, rfl, ⟨rfl, ?_, ?_, hfits⟩, hfull.symm, ?_, ?_, rfl⟩
      · exact Nat.lt_add_of_pos_right (by decide)
      · rw [length_realloc]
        exact (Nat.le_div_iff_mul_le (by decide)).mpr hsize
      · rw [hfull, grown_full]
      · rw [take_realloc _ (by rwa [List.length_set]) hkept, ← hfull, hset]
    · rw [addInt_eq_none (not_le.mp hfits)]
      exact Or.inr ⟨not_le.mp hfits, rfl⟩
  · rw [if_neg hfull]
    have hlt : s.count + 1 < s.limit := by omega
    rw [grown_of_lt hlt]
    refine Or.inl ⟨hint, _, rfl, ⟨rfl, hlt, ?_, hint⟩, rfl, (grown_of_lt hlt).symm, hset, rfl⟩
    rwa [List.length_set]

/-! ## One piece -/

theorem wordLoop_bytes {w : WordScan} {accesses : List Access}
    (h : wordLoop buffer buffLen (buffLen + 1) ⟨i, 0, buffer i, 0, fun _ => 0, accesses⟩ =
      some w) :
    cString w.str w.lenStr ++ segment buffer w.i buffLen = segment buffer i buffLen := by
  obtain ⟨v, hv, -, hstr, hrest, -⟩ :
      ∃ v, wordLoop buffer buffLen (buffLen + 1) ⟨i, 0, buffer i, 0, fun _ => 0, accesses⟩ =
        some v ∧ 0 ≤ v.lenStr ∧ Copied buffer buffLen _ v :=
    wordLoop_copied (by simp only; omega) rfl rfl
  rw [h, Option.some.injEq] at hv
  subst hv
  rw [hstr, hrest]
  exact List.takeWhile_append_dropWhile

theorem takes_nil (readHex : Bool) (s : Scanner) : Takes readHex [] s [] s := by
  refine ⟨rfl, rfl, nofun, rfl, rfl, ?_⟩
  rw [words_nil, List.map_nil, List.append_nil]

theorem Takes.separator {accesses : List Access} {cha : UInt8} {piece : List UInt8}
    (hb : isBlank cha = true)
    (h : Takes readHex piece { s with accesses := accesses } tokens t) :
    Takes readHex (cha :: piece) s (.separator cha :: tokens) t := by
  obtain ⟨hbytes, hwords, hblanks, hindices, hcount, harray⟩ := h
  rw [← words_cons_sep hb] at hwords hindices hcount harray
  refine ⟨congrArg (cha :: ·) hbytes, hwords, fun c hc => ?_, hindices, hcount, harray⟩
  rcases List.mem_cons.mp hc with heq | hc
  · rwa [Token.separator.inj heq]
  · exact hblanks c hc

theorem Takes.word {accesses : List Access} {str rest piece : List UInt8} {u : Scanner}
    (hpiece : str ++ rest = piece) (hwords : words isBlank piece = str :: words isBlank rest)
    (hu : Stores (toInteger readHex str) { s with accesses := accesses } u)
    (h : Takes readHex rest u tokens t) :
    Takes readHex piece s (.word str s.count :: tokens) t := by
  refine ⟨?_, ?_, fun c hc => ?_, ?_, ?_, ?_⟩
  · rw [← hpiece, ← h.bytes]
    rfl
  · rw [hwords, ← h.runs]
    rfl
  · exact h.blanks c ((List.mem_cons.mp hc).resolve_left nofun)
  · rw [hwords, List.length_cons, List.range'_succ, ← hu.count, ← h.indices]
    rfl
  · have hcount : u.count = s.count + 1 := hu.count
    rw [h.count, hcount, hwords, List.length_cons]
    omega
  · rw [h.array, hu.array, hwords, List.map_cons, List.append_assoc]
    rfl

/-- The scan takes the piece, or `limit` overflows. -/
def Scans (readHex : Bool) (piece : List UInt8) (s : Scanner)
    (result : Option (List Token × Scanner)) : Prop :=
  (grown s.limit (s.count + (words isBlank piece).length) ≤ INT_MAX ∧
      ∃ tokens t, result = some (tokens, t) ∧ Takes readHex piece s tokens t ∧ t.Ready) ∨
    (INT_MAX < grown s.limit (s.count + (words isBlank piece).length) ∧ result = none)

theorem Scans.separator {accesses : List Access} {cha : UInt8} {piece : List UInt8}
    {result : Option (List Token × Scanner)} (hb : isBlank cha = true)
    (h : Scans readHex piece { s with accesses := accesses } result) :
    Scans readHex (cha :: piece) s
      (result.bind fun (tokens, t) => some (.separator cha :: tokens, t)) := by
  unfold Scans
  rw [words_cons_sep hb]
  rcases h with ⟨hfits, tokens, t, rfl, htakes, ht⟩ | ⟨hover, rfl⟩
  · exact Or.inl ⟨hfits, _, t, rfl, htakes.separator hb, ht⟩
  · exact Or.inr ⟨hover, rfl⟩

theorem Scans.word {accesses : List Access} {str rest piece : List UInt8}
    {scanRest : Scanner → Option (List Token × Scanner)} (h : s.Ready)
    (hpiece : str ++ rest = piece) (hwords : words isBlank piece = str :: words isBlank rest)
    (hrest : ∀ u, u.Ready → Scans readHex rest u (scanRest u)) :
    Scans readHex piece s
      ((storeInteger fresh { s with accesses := accesses } (toInteger readHex str)).bind fun u =>
        (scanRest u).bind fun (tokens, t) => some (.word str s.count :: tokens, t)) := by
  have hlength : s.count + (words isBlank piece).length =
      s.count + 1 + (words isBlank rest).length := by
    rw [hwords, List.length_cons]
    omega
  unfold Scans
  rw [hlength]
  rcases storeInteger_stores fresh (h.withAccesses accesses) (toInteger readHex str) with
    ⟨-, u, hu, hstores⟩ | ⟨hover, hu⟩
  · have hlimit : grown u.limit (u.count + (words isBlank rest).length) =
        grown s.limit (s.count + 1 + (words isBlank rest).length) := by
      rw [hstores.count, hstores.limit]
      exact grown_grown (Nat.le_add_right _ _)
    rw [hu, ← hlimit, Option.bind_some]
    rcases hrest u hstores.ready with ⟨hfits, tokens, t, hrun, htakes, ht⟩ | ⟨hover, hrun⟩
    · rw [hrun]
      exact Or.inl ⟨hfits, _, t, rfl, htakes.word hpiece hwords hstores, ht⟩
    · rw [hrun]
      exact Or.inr ⟨hover, rfl⟩
  · rw [hu]
    exact Or.inr ⟨hover.trans_le (grown_mono (Nat.le_add_right _ _)), rfl⟩

theorem scanLoop_scans (fresh : Nat → Nat → Int) (hfuel : buffLen - i < fuel) (h : s.Ready) :
    Scans readHex (segment buffer i buffLen) s
      (scanLoop readHex fresh buffer buffLen fuel i s) := by
  induction fuel generalizing i s with
  | zero => omega
  | succ fuel ih =>
      rw [scanLoop]
      split
      next hi =>
        cases hb : isBlank (buffer i) with
        | true =>
            have hrest := ih (i := i + 1) (by omega)
              (h.withAccesses (.loadBuffer i buffLen :: s.accesses))
            rw [segment_cons hi]
            exact hrest.separator hb
        | false =>
            obtain ⟨w, str, hw, hstr, hwi, hwords, -⟩ :=
              wordLoop_word hi hb (.loadBuffer i buffLen :: s.accesses)
            have hbytes := wordLoop_bytes hw
            rw [← hstr] at hbytes
            simp only [Bool.not_false, if_true, hw, ← hstr, Option.bind_eq_bind, Option.bind_some]
            exact Scans.word h hbytes hwords fun u hu => ih (by omega) hu
      next hi =>
        rw [segment_nil (not_lt.mp hi)]
        refine Or.inl ⟨?_, [], s, rfl, takes_nil readHex s, h⟩
        rw [words_nil, List.length_nil, Nat.add_zero, grown_of_lt h.room]
        exact h.int

theorem scan_scans (readHex : Bool) (fresh : Nat → Nat → Int) (buffer : Nat → UInt8)
    (piece : List UInt8) (h : s.Ready) :
    Scans readHex piece s (scan readHex fresh buffer piece s) := by
  have hloop : Scans readHex (segment (fill buffer piece) 0 piece.length) s
      (scan readHex fresh buffer piece s) :=
    scanLoop_scans fresh (Nat.lt_succ_self piece.length) h
  rwa [segment_fill] at hloop

/-- The scan of a piece is defined, and takes the piece, exactly if `limit` stays an `int`. -/
theorem scan_takes_iff (readHex : Bool) (fresh : Nat → Nat → Int) (buffer : Nat → UInt8)
    (piece : List UInt8) (s : Scanner) (h : s.Ready) :
    (∃ tokens t, scan readHex fresh buffer piece s = some (tokens, t) ∧
      Takes readHex piece s tokens t ∧ t.Ready) ↔
      grown s.limit (s.count + (words isBlank piece).length) ≤ INT_MAX := by
  rcases scan_scans readHex fresh buffer piece h with ⟨hfits, htakes⟩ | ⟨hover, hnone⟩
  · exact ⟨fun _ => hfits, fun _ => htakes⟩
  · refine ⟨?_, fun hfits => absurd hfits (not_le.mpr hover)⟩
    rintro ⟨tokens, t, hrun, -⟩
    rw [hnone] at hrun
    cases hrun

/-- Two numbers in a block of two, the second of which fills it. -/
theorem scan_takes_seven : ∃ tokens t,
    scan false (fun _ _ => 0) (fun _ => 0) ['7'.toUInt8] ⟨[5, 0], 2, 1, 1, []⟩ =
      some (tokens, t) ∧
    Takes false ['7'.toUInt8] ⟨[5, 0], 2, 1, 1, []⟩ tokens t ∧ t.Ready :=
  (scan_takes_iff false (fun _ _ => 0) (fun _ => 0) ['7'.toUInt8] ⟨[5, 0], 2, 1, 1, []⟩
    ⟨rfl, by decide, by decide, by decide⟩).mpr (by decide)

/-- The byte behind the piece is loaded, but not taken. -/
example : (scan false (fun _ _ => 0) (fun _ => '9'.toUInt8) ['7'.toUInt8, ' '.toUInt8, '8'.toUInt8]
    (start fun _ => 0)).map Prod.fst =
    some [.word ['7'.toUInt8] 0, .separator ' '.toUInt8, .word ['8'.toUInt8] 1] := by
  decide +kernel

/-- The last limit of the scanner, with room for one more integer. -/
def lastLimit : Scanner := ⟨List.replicate 2147483600 0, 2147483600, 2147483599, 2147483599, []⟩

theorem lastLimit_ready : lastLimit.Ready := by
  refine ⟨rfl, ?_, ?_, ?_⟩
  · dsimp only [lastLimit]
    omega
  · dsimp only [lastLimit]
    rw [List.length_replicate]
  · dsimp only [lastLimit, INT_MAX]
    omega

/-- The scan of one more word is not defined. -/
theorem lastLimit_overflows : lastLimit.Ready ∧
    ¬ ∃ tokens t, scan false (fun _ _ => 0) (fun _ => 0) ['7'.toUInt8] lastLimit =
      some (tokens, t) := by
  refine ⟨lastLimit_ready, ?_⟩
  have hwords : (words isBlank ['7'.toUInt8]).length = 1 := by decide
  have hover : INT_MAX < grown lastLimit.limit (lastLimit.count + 1) := by
    dsimp only [lastLimit, grown, INT_MAX]
    omega
  rcases scan_scans false (fun _ _ => 0) (fun _ => 0) ['7'.toUInt8] lastLimit_ready with
    ⟨hfits, -⟩ | ⟨-, hnone⟩
  · rw [hwords] at hfits
    omega
  · rintro ⟨tokens, t, hrun⟩
    rw [hnone] at hrun
    cases hrun

end Scanner

/-! ## The reader in its allocation -/

/-- The reader's array is at the front of the block. -/
structure Agrees (s : Scanner) (r : Reader) : Prop where
  ready : s.Ready
  limit : r.limit = s.limit
  count : r.count = s.count
  numberRead : r.numberRead = s.numberRead
  accesses : r.accesses = s.accesses
  array : (List.range s.count).map r.array = s.block.take s.count

section Agreement

variable {readHex : Bool} {buffer : Nat → UInt8} {buffLen i fuel : Nat} {s : Scanner}
  {r : Reader}

theorem Agrees.withAccesses (h : Agrees s r) (accesses : List Access) :
    Agrees { s with accesses := accesses } { r with accesses := accesses } :=
  ⟨h.ready.withAccesses accesses, h.limit, h.count, h.numberRead, rfl, h.array⟩

theorem storeInteger_agrees (fresh : Nat → Nat → Int) (h : Agrees s r) (integer : Int) :
    Option.Rel Agrees (Scanner.storeInteger fresh s integer) (storeInteger r integer) := by
  have hroom := h.ready.room
  have hint := h.ready.int
  have heven : r.numberRead = r.count := by rw [h.numberRead, h.count, h.ready.even]
  have hnext : r.count + 1 ≤ INT_MAX := by
    rw [h.count]
    omega
  rw [storeInteger_eq heven hnext, h.count, h.limit, h.accesses, growLimit_eq hroom hint]
  rcases Scanner.storeInteger_stores fresh h.ready integer with
    ⟨hfits, t, ht, hstores⟩ | ⟨hover, ht⟩
  · rw [ht, if_pos hfits]
    refine Option.Rel.some ⟨hstores.ready, hstores.limit.symm, hstores.count.symm, ?_,
      hstores.accesses.symm, ?_⟩
    · rw [hstores.ready.even, hstores.count]
    · rw [hstores.array, hstores.count, ← h.array]
      exact map_range_update r.array s.count integer
  · rw [ht, if_neg (not_le.mpr hover)]
    exact Option.Rel.none

theorem map_snd_bind (token : Token) (result : Option (List Token × Scanner)) :
    (result.bind fun (tokens, t) => some (token :: tokens, t)).map Prod.snd =
      result.map Prod.snd := by
  cases result <;> rfl

theorem scanLoop_agrees (fresh : Nat → Nat → Int) (h : Agrees s r) :
    Option.Rel Agrees ((Scanner.scanLoop readHex fresh buffer buffLen fuel i s).map Prod.snd)
      (scanLoop readHex buffer buffLen fuel i r) := by
  induction fuel generalizing i s r with
  | zero => exact Option.Rel.none
  | succ fuel ih =>
      rw [Scanner.scanLoop, scanLoop, h.accesses]
      split
      next hi =>
        cases hb : isBlank (buffer i) with
        | true =>
            have hrest := ih (i := i + 1) (h.withAccesses (.loadBuffer i buffLen :: s.accesses))
            simp only [Bool.not_true, Bool.false_eq_true, if_false, Option.bind_eq_bind,
              Option.pure_def, map_snd_bind]
            exact hrest
        | false =>
            obtain ⟨w, str, hw, hstr, -⟩ :=
              wordLoop_word hi hb (.loadBuffer i buffLen :: s.accesses)
            have hstore := storeInteger_agrees fresh (h.withAccesses w.accesses)
              (toInteger readHex str)
            simp only [Bool.not_false, if_true, hw, ← hstr, Option.bind_eq_bind, Option.bind_some,
              Option.pure_def]
            generalize Scanner.storeInteger fresh _ _ = t at hstore ⊢
            generalize storeInteger _ _ = v at hstore ⊢
            cases hstore with
            | some hagrees =>
                simp only [Option.bind_some, map_snd_bind]
                exact ih hagrees
            | none => exact Option.Rel.none
      next hi => exact Option.Rel.some h

theorem readLoop_agrees (fresh : Nat → Nat → Int) (pieces : List (List UInt8)) (h : Agrees s r) :
    Option.Rel Agrees (Scanner.readLoop readHex fresh pieces buffer s)
      (readLoop readHex pieces buffer r) := by
  induction pieces generalizing buffer s r with
  | nil => exact Option.Rel.some h
  | cons piece pieces ih =>
      rw [Scanner.readLoop, readLoop]
      split
      next =>
        have hscan : Option.Rel Agrees ((Scanner.scan readHex fresh buffer piece s).map Prod.snd)
            (scanLoop readHex (fill buffer piece) piece.length (piece.length + 1) 0 r) :=
          scanLoop_agrees fresh h
        simp only [Option.bind_eq_bind]
        generalize Scanner.scan readHex fresh buffer piece s = x at hscan ⊢
        generalize scanLoop _ _ _ _ _ r = y at hscan ⊢
        cases x with
        | none =>
            cases hscan
            exact Option.Rel.none
        | some x =>
            cases hscan with
            | some hagrees => exact ih hagrees
      next => exact Option.Rel.some h

theorem start_agrees (m : Fresh) : Agrees (Scanner.start m.array) m.reader := by
  have hlength : (Scanner.start m.array).block.length = 200 := Scanner.length_realloc m.array [] _
  have hlimit : (Scanner.start m.array).limit = 100 := rfl
  refine ⟨⟨rfl, Nat.zero_lt_succ _, ?_, ?_⟩, rfl, rfl, rfl, rfl, rfl⟩
  · rw [hlength, hlimit]
    decide
  · rw [hlimit]
    decide

/-- With the allocation the scanner gets through the same files: no store is outside of it. -/
theorem readNumbers_allocated (readHex : Bool) (fresh : Nat → Nat → Int) (m : Fresh)
    (pieces : List (List UInt8)) :
    Option.Rel Agrees (Scanner.readLoop readHex fresh pieces m.buffer (Scanner.start m.array))
      (readLoop readHex pieces m.buffer m.reader) :=
  readLoop_agrees fresh pieces (start_agrees m)

end Agreement

end CompOrg.FileIO
