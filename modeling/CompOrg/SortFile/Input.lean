import CompOrg.Lib.Fscanf
import Mathlib.Logic.Function.Basic

/-! # `readNumbers` with `fscanf`

The loops go on until `EOF`, so a conversion that fails is counted like one that matches.
The array is large enough, as the precondition says; an integer that is out of range keeps
its low bits. The fuel of a loop is the number of times that its condition is tested.
-/

namespace CompOrg.SortFile

/-- The variables of `readNumbers`, and the indices at which `fscanf` has stored. -/
structure Input where
  array : Nat → Int
  count : Nat
  numberRead : Nat
  stores : List Nat

/-- How the loop ends: the function returns, or it calls `exit(0)`. -/
inductive Outcome
  | returned (result : Int) (r : Input)
  | exited

def Input.store (r : Input) (integer : Int) : Input :=
  { r with
    array := Function.update r.array r.count (int32 integer)
    stores := r.count :: r.stores }

def Input.advance (r : Input) : Option Input := do
  let numberRead ← addInt r.numberRead 1
  let count ← addInt r.count 1
  return { r with numberRead := numberRead, count := count }

/-- `fscanf(fp, .., &array[count])`, `none` for `EOF`. A conversion that fails leaves what
`left` says of the stream: all of it, or less by the sign that it has read. -/
def scan (left : List UInt8 → List UInt8) (base : Nat) (s : List UInt8) (r : Input) :
    Option (List UInt8 × Input) :=
  match fscanf base s with
  | .matched n rest => some (rest, r.store n)
  | .failed => some (left s, r)
  | .eof => none

/-- `while (fscanf(..) != EOF)`, with or without `if (count >= 100)` in its body. -/
def readLoop (left : List UInt8 → List UInt8) (base : Nat) (guarded : Bool) :
    Nat → List UInt8 → Input → Option Outcome
  | 0, _, _ => none
  | fuel + 1, s, r =>
      match scan left base s r with
      | none => some (.returned r.numberRead r)
      | some (s, r) => do
          let r ← r.advance
          if guarded && r.count ≥ 100 then some .exited
          else readLoop left base guarded fuel s r

/-- `readNumbers` of `fileio.c`; there is no file where it cannot be opened. -/
def readNumbers (left : List UInt8 → List UInt8) (readHex : Bool) (array : Nat → Int)
    (fuel : Nat) : Option (List UInt8) → Option Outcome
  | none => some (.returned (-1) ⟨array, 0, 0, []⟩)
  | some file =>
      if readHex then readLoop left 16 false fuel file ⟨array, 0, 0, []⟩
      else readLoop left 10 true fuel file ⟨array, 0, 0, []⟩

/-- `readNumbers` of `sortfile.c` in `hw4`, which has no guard and no hexadecimal mode. -/
def Hw4.readNumbers (left : List UInt8 → List UInt8) (array : Nat → Int) (fuel : Nat) :
    Option (List UInt8) → Option Outcome
  | none => some (.returned (-1) ⟨array, 0, 0, []⟩)
  | some file => readLoop left 10 false fuel file ⟨array, 0, 0, []⟩

/-- After at most one iteration for each byte of the file, `k` is returned, and `fscanf` has
stored as often. -/
def Counts (read : Nat → Option (List UInt8) → Option Outcome) (file : List UInt8) (k : Nat) :
    Prop :=
  ∃ r, read (file.length + 1) (some file) = some (.returned k r) ∧ r.stores.length = k

section Loop

variable {left : List UInt8 → List UInt8} {base fuel : Nat} {guarded : Bool}
  {s u file : List UInt8} {result : Int} {ns : List Int} {r v t : Input}

/-! ## One iteration -/

/-- The count at which a loop does not go on. -/
def limit (guarded : Bool) : Nat := if guarded then 100 else INT_MAX + 1

/-- The variables at the test of a loop. -/
structure Input.Running (guarded : Bool) (r : Input) : Prop where
  even : r.numberRead = r.count
  below : r.count < limit guarded

def Input.next (r : Input) : Input :=
  { r with numberRead := r.numberRead + 1, count := r.count + 1 }

theorem Input.Running.store (hr : r.Running guarded) (integer : Int) :
    (r.store integer).Running guarded := ⟨hr.even, hr.below⟩

theorem Input.Running.next (hr : r.Running guarded) (hlt : r.count + 1 < limit guarded) :
    r.next.Running guarded := ⟨congrArg (· + 1) hr.even, hlt⟩

theorem limit_pos (guarded : Bool) : 0 < limit guarded := by
  cases guarded <;> decide

theorem running_start (array : Nat → Int) : Input.Running guarded ⟨array, 0, 0, []⟩ :=
  ⟨rfl, limit_pos guarded⟩

theorem advance_eq_some (heven : r.numberRead = r.count) (hlt : r.count < INT_MAX) :
    r.advance = some r.next := by
  have hadd : addInt r.count 1 = some (r.count + 1) := addInt_eq_some hlt
  rw [Input.advance, heven, hadd]
  simp [Input.next, heven]

theorem advance_eq_none (heven : r.numberRead = r.count) (hge : ¬ r.count < INT_MAX) :
    r.advance = none := by
  have hadd : addInt r.count 1 = none := addInt_eq_none (Nat.lt_succ_of_le (not_lt.mp hge))
  rw [Input.advance, heven, hadd]
  rfl

/-- Below the limit the loop goes on, and at the limit it does not return. -/
theorem readLoop_step (hscan : scan left base s r = some (u, v)) (hv : v.Running guarded) :
    readLoop left base guarded (fuel + 1) s r =
      if v.count + 1 < limit guarded then readLoop left base guarded fuel u v.next
      else if guarded then some .exited else none := by
  have hbelow := hv.below
  rw [readLoop, hscan]
  dsimp only
  cases guarded with
  | true =>
      simp only [limit, if_true] at hbelow ⊢
      rw [advance_eq_some hv.even (by unfold INT_MAX; omega)]
      by_cases hlt : v.count + 1 < 100
      · have hguard : ¬ v.next.count ≥ 100 := not_le.mpr hlt
        simp [hguard, hlt]
      · have hguard : v.next.count ≥ 100 := not_lt.mp hlt
        simp [hguard, hlt]
  | false =>
      by_cases hlt : v.count < INT_MAX
      · rw [advance_eq_some hv.even hlt]
        simp [limit, hlt]
      · rw [advance_eq_none hv.even hlt]
        simp [limit, hlt]

theorem readLoop_eof (heof : fscanf base s = .eof) :
    readLoop left base guarded (fuel + 1) s r = some (.returned r.numberRead r) := by
  have hscan : scan left base s r = none := by rw [scan, heof]
  rw [readLoop, hscan]

/-! ## Streams of numerals -/

def Input.read (r : Input) (integer : Int) : Input := (r.store integer).next

theorem foldl_read (r : Input) (ns : List Int) :
    (ns.foldl Input.read r).count = r.count + ns.length ∧
      (ns.foldl Input.read r).numberRead = r.numberRead + ns.length ∧
      (ns.foldl Input.read r).stores.length = r.stores.length + ns.length := by
  induction ns generalizing r with
  | nil => exact ⟨rfl, rfl, rfl⟩
  | cons n ns ih =>
      obtain ⟨hcount, hnumber, hstores⟩ := ih (r.read n)
      simp only [Input.read, Input.store, Input.next, List.length_cons] at hcount hnumber hstores
      simp only [List.foldl_cons, List.length_cons]
      exact ⟨hcount.trans (by omega), hnumber.trans (by omega), hstores.trans (by omega)⟩

/-- The indices of the stores, the last one in front. -/
theorem foldl_read_stores (r : Input) (ns : List Int) :
    (ns.foldl Input.read r).stores = (List.range' r.count ns.length).reverse ++ r.stores := by
  induction ns generalizing r with
  | nil => rfl
  | cons n ns ih =>
      have hstep : (r.read n).stores = r.count :: r.stores := rfl
      have hcount : (r.read n).count = r.count + 1 := rfl
      rw [List.foldl_cons, ih, hstep, hcount, List.length_cons, List.range'_succ,
        List.reverse_cons, List.append_assoc]
      rfl

theorem foldl_read_array (r : Input) (ns : List Int) :
    (∀ i, i < r.count → (ns.foldl Input.read r).array i = r.array i) ∧
      (List.range' r.count ns.length).map (ns.foldl Input.read r).array = ns.map int32 := by
  induction ns generalizing r with
  | nil => exact ⟨fun _ _ => rfl, rfl⟩
  | cons n ns ih =>
      have hcount : (r.read n).count = r.count + 1 := rfl
      obtain ⟨hkept, harray⟩ := ih (r.read n)
      rw [hcount] at hkept harray
      constructor
      · intro i hi
        rw [List.foldl_cons, hkept i (by omega)]
        exact Function.update_of_ne hi.ne _ _
      · have hstored : (r.read n).array r.count = int32 n := Function.update_self _ _ _
        rw [List.foldl_cons, List.length_cons, List.range'_succ, List.map_cons, harray,
          hkept r.count (Nat.lt_succ_self _), hstored, List.map_cons]

theorem readLoop_numerals (hbase : base ≤ 36) (hns : Numerals base s ns) (hr : r.Running guarded)
    (hlimit : r.count + ns.length < limit guarded) (hfuel : ns.length < fuel) :
    readLoop left base guarded fuel s r =
      some (.returned ((r.count + ns.length : Nat) : Int) (ns.foldl Input.read r)) := by
  induction hns generalizing r fuel with
  | nil hspaces =>
      obtain ⟨fuel, rfl⟩ := Nat.exists_eq_add_one_of_ne_zero (Nat.ne_of_gt hfuel)
      rw [readLoop_eof (fscanf_spaces hspaces), hr.even]
      rfl
  | @cons spaces s rest n ns hspaces hmatches _ ih =>
      simp only [List.length_cons] at hlimit hfuel
      have hpos : 0 < fuel := Nat.zero_lt_of_lt hfuel
      obtain ⟨fuel, rfl⟩ := Nat.exists_eq_add_one_of_ne_zero (Nat.ne_of_gt hpos)
      have hscan : scan left base (spaces ++ s) r = some (rest, r.store n) := by
        rw [scan, fscanf_numeral hbase hspaces hmatches]
      have hlt : (r.store n).count + 1 < limit guarded := by
        simp only [Input.store]
        omega
      have hcount : (r.read n).count = r.count + 1 := rfl
      rw [readLoop_step hscan (hr.store n), if_pos hlt,
        ih ((hr.store n).next hlt) (by simp only [Input.next, Input.store]; omega) (by omega)]
      simp only [List.length_cons, List.foldl_cons]
      congr 3
      simp only [Input.next, Input.store]
      omega

theorem counts_of_numerals (left : List UInt8 → List UInt8) (array : Nat → Int)
    (hbase : base ≤ 36) (hns : Numerals base file ns) (hlimit : ns.length < limit guarded) :
    ∃ t, readLoop left base guarded (file.length + 1) file ⟨array, 0, 0, []⟩ =
      some (.returned ns.length t) ∧ t.stores.length = ns.length := by
  obtain ⟨-, -, hstores⟩ := foldl_read ⟨array, 0, 0, []⟩ ns
  refine ⟨ns.foldl Input.read ⟨array, 0, 0, []⟩, ?_, hstores.trans (Nat.zero_add _)⟩
  rw [readLoop_numerals hbase hns (running_start array) (by simpa using hlimit)
    (Nat.lt_succ_of_le hns.length_le)]
  simp

/-! ## Any stream -/

/-- A test of the loop: at the end of the stream, at a numeral, or at anything else. -/
theorem scan_cases (left : List UInt8 → List UInt8) (base : Nat) (s : List UInt8) (r : Input) :
    fscanf base s = .eof ∨
      (∃ n rest, fscanf base s = .matched n rest ∧ scan left base s r = some (rest, r.store n)) ∨
      (fscanf base s = .failed ∧ scan left base s r = some (left s, r)) := by
  unfold scan
  cases fscanf base s with
  | matched n rest => exact Or.inr (Or.inl ⟨n, rest, rfl, rfl⟩)
  | failed => exact Or.inr (Or.inr ⟨rfl, rfl⟩)
  | eof => exact Or.inl rfl

theorem readLoop_next (hscan : scan left base s r = some (u, v)) (hv : v.Running guarded)
    (h : readLoop left base guarded (fuel + 1) s r = some (.returned result t)) :
    v.next.Running guarded ∧
      readLoop left base guarded fuel u v.next = some (.returned result t) := by
  rw [readLoop_step hscan hv] at h
  split at h
  next hlt => exact ⟨hv.next hlt, h⟩
  next => split at h <;> cases h

/-- The result counts the iterations, of which those with a store read numerals. -/
theorem readLoop_returned (hbase : base ≤ 36) (hr : r.Running guarded)
    (h : readLoop left base guarded fuel s r = some (.returned result t)) :
    ∃ k m : Nat, result = ((r.count + k : Nat) : Int) ∧ r.count + k < limit guarded ∧
      t.stores.length = r.stores.length + m ∧ m ≤ k ∧
      (m = k → ∃ ns, Numerals base s ns ∧ ns.length = k) := by
  induction fuel generalizing s r with
  | zero => cases h
  | succ fuel ih =>
      rcases scan_cases left base s r with heof | ⟨n, rest, hmatched, hscan⟩ | ⟨-, hscan⟩
      · rw [readLoop_eof heof, Option.some.injEq, Outcome.returned.injEq] at h
        obtain ⟨rfl, rfl⟩ := h
        exact ⟨0, 0, congrArg _ hr.even, hr.below, rfl, le_rfl,
          fun _ => ⟨[], .nil (spaces_of_eof heof), rfl⟩⟩
      · obtain ⟨hnext, h⟩ := readLoop_next hscan (hr.store n) h
        obtain ⟨k, m, hresult, hlimit, hstores, hle, hnumerals⟩ := ih hnext h
        simp only [Input.next, Input.store, List.length_cons] at hresult hlimit hstores
        refine ⟨k + 1, m + 1, by omega, by omega, by omega, by omega, fun heq => ?_⟩
        obtain ⟨ns, hns, hlen⟩ := hnumerals (by omega)
        exact ⟨n :: ns, .of_matched hbase hmatched hns, congrArg (· + 1) hlen⟩
      · obtain ⟨hnext, h⟩ := readLoop_next hscan hr h
        obtain ⟨k, m, hresult, hlimit, hstores, hle, -⟩ := ih hnext h
        simp only [Input.next] at hresult hlimit hstores
        exact ⟨k + 1, m, by omega, by omega, by omega, by omega, fun heq => by omega⟩

/-- A loop counts exactly the streams of numerals below its limit, whatever a conversion that
fails leaves of the stream. -/
theorem counts_iff (left : List UInt8 → List UInt8) (hbase : base ≤ 36) (array : Nat → Int) :
    (∃ k, ∃ t, readLoop left base guarded (file.length + 1) file ⟨array, 0, 0, []⟩ =
      some (.returned (k : Nat) t) ∧ t.stores.length = k) ↔
    ∃ ns, Numerals base file ns ∧ ns.length < limit guarded := by
  constructor
  · rintro ⟨k, t, hrun, hstores⟩
    obtain ⟨j, m, hresult, hlimit, hlen, -, hnumerals⟩ :=
      readLoop_returned hbase (running_start array) hrun
    simp only [List.length_nil] at hlen hresult hlimit
    obtain ⟨ns, hns, hj⟩ := hnumerals (by omega)
    exact ⟨ns, hns, by omega⟩
  · rintro ⟨ns, hns, hlimit⟩
    exact ⟨ns.length, counts_of_numerals left array hbase hns hlimit⟩

/-- The guard ends a loop that has no other end. -/
theorem guarded_ends (hr : r.Running true) (hfuel : 100 ≤ r.count + fuel) :
    (∃ result t, readLoop left base true fuel s r = some (.returned result t)) ∨
      readLoop left base true fuel s r = some .exited := by
  induction fuel generalizing s r with
  | zero =>
      have hbelow := hr.below
      simp only [limit, if_true] at hbelow
      omega
  | succ fuel ih =>
      have hgo {u : List UInt8} {v : Input} (hscan : scan left base s r = some (u, v))
          (hv : v.Running true) (hcount : v.count = r.count) :
          (∃ result t, readLoop left base true (fuel + 1) s r = some (.returned result t)) ∨
            readLoop left base true (fuel + 1) s r = some .exited := by
        rw [readLoop_step hscan hv]
        split
        next hlt => exact ih (hv.next hlt) (by simp only [Input.next]; omega)
        next => exact Or.inr rfl
      rcases scan_cases left base s r with heof | ⟨n, rest, -, hscan⟩ | ⟨-, hscan⟩
      · exact Or.inl ⟨_, _, readLoop_eof heof⟩
      · exact hgo hscan (hr.store n) rfl
      · exact hgo hscan hr rfl

/-- Where a conversion that fails consumes nothing, a loop returns from numerals only. -/
theorem numerals_of_returned (hbase : base ≤ 36) (hr : r.Running guarded)
    (h : readLoop id base guarded fuel s r = some (.returned result t)) :
    ∃ ns, Numerals base s ns := by
  induction fuel generalizing s r with
  | zero => cases h
  | succ fuel ih =>
      rcases scan_cases id base s r with heof | ⟨n, rest, hmatched, hscan⟩ | ⟨-, hscan⟩
      · exact ⟨[], .nil (spaces_of_eof heof)⟩
      · obtain ⟨hnext, h⟩ := readLoop_next hscan (hr.store n) h
        obtain ⟨ns, hns⟩ := ih hnext h
        exact ⟨n :: ns, .of_matched hbase hmatched hns⟩
      · obtain ⟨hnext, h⟩ := readLoop_next hscan hr h
        exact ih hnext h

theorem exits_of_not_numerals (array : Nat → Int) (h : ∀ ns, ¬ Numerals 10 file ns) :
    readLoop id 10 true 100 file ⟨array, 0, 0, []⟩ = some .exited := by
  have hend : (∃ result t, readLoop id 10 true 100 file ⟨array, 0, 0, []⟩ =
      some (.returned result t)) ∨ readLoop id 10 true 100 file ⟨array, 0, 0, []⟩ = some .exited :=
    guarded_ends (running_start array) (by simp)
  rcases hend with ⟨result, t, hrun⟩ | hexit
  · obtain ⟨ns, hns⟩ := numerals_of_returned (by decide) (running_start array) hrun
    exact (h ns hns).elim
  · exact hexit

end Loop

/-! ## The three loops -/

/-- A file of numerals is counted, below the limit of the guard in decimal mode; there a file
of anything else ends the program. -/
theorem readNumbers_counts (left : List UInt8 → List UInt8) (array : Nat → Int)
    (file : List UInt8) :
    (∀ ns, Numerals 10 file ns → ns.length < 100 →
      Counts (readNumbers left false array) file ns.length) ∧
    (∀ ns, Numerals 16 file ns → ns.length ≤ INT_MAX →
      Counts (readNumbers left true array) file ns.length) ∧
    (∀ ns, Numerals 10 file ns → ns.length ≤ INT_MAX →
      Counts (Hw4.readNumbers left array) file ns.length) ∧
    ((∀ ns, ¬ Numerals 10 file ns) →
      readNumbers id false array 100 (some file) = some .exited) := by
  refine ⟨fun ns hns hlimit => ?_, fun ns hns hlimit => ?_, fun ns hns hlimit => ?_, ?_⟩
  · exact counts_of_numerals left array (by decide) hns hlimit
  · exact counts_of_numerals left array (by decide) hns (Nat.lt_succ_of_le hlimit)
  · exact counts_of_numerals left array (by decide) hns (Nat.lt_succ_of_le hlimit)
  · exact exits_of_not_numerals array

/-- A file of the three numerals `7`, `-5` and `12`. -/
def threeNumerals : List UInt8 := [55, 32, 45, 53, 32, 49, 50, 10]

theorem threeNumerals_numerals :
    Numerals 10 threeNumerals [7, -5, 12] ∧ Numerals 16 threeNumerals [7, -5, 18] := by
  have hend (base : Nat) : Numerals base [10] [] :=
    .nil fun c hc => by rw [List.mem_singleton.mp hc]; rfl
  constructor
  · exact .of_matched (by decide) rfl (.of_matched (by decide) rfl
      (.of_matched (by decide) rfl (hend 10)))
  · exact .of_matched (by decide) rfl (.of_matched (by decide) rfl
      (.of_matched (by decide) rfl (hend 16)))

/-- Three numerals, and a letter in front of them. -/
theorem readNumbers_counts_three :
    Counts (readNumbers id false fun _ => 0) threeNumerals 3 ∧
      Counts (readNumbers id true fun _ => 0) threeNumerals 3 ∧
      Counts (Hw4.readNumbers id fun _ => 0) threeNumerals 3 ∧
      readNumbers id false (fun _ => 0) 100 (some ('x'.toUInt8 :: threeNumerals)) =
        some .exited := by
  obtain ⟨hten, hsixteen⟩ := threeNumerals_numerals
  obtain ⟨hdecimal, hhex, hfirst, -⟩ := readNumbers_counts id (fun _ => 0) threeNumerals
  obtain ⟨-, -, -, hexit⟩ := readNumbers_counts id (fun _ => 0) ('x'.toUInt8 :: threeNumerals)
  have hletter : fscanf 10 ('x'.toUInt8 :: threeNumerals) = .failed := rfl
  exact ⟨hdecimal _ hten (by decide), hhex _ hsixteen (by decide), hfirst _ hten (by decide),
    hexit fun ns hns => hns.not_failed (by decide) hletter⟩

/-- On the file `x` no loop returns. -/
theorem letter_not_returned :
    (¬ ∃ fuel result t, readNumbers id false (fun _ => 0) fuel (some ['x'.toUInt8]) =
      some (.returned result t)) ∧
    (¬ ∃ fuel result t, readNumbers id true (fun _ => 0) fuel (some ['x'.toUInt8]) =
      some (.returned result t)) ∧
    (¬ ∃ fuel result t, Hw4.readNumbers id (fun _ => 0) fuel (some ['x'.toUInt8]) =
      some (.returned result t)) := by
  have hno {base fuel : Nat} {guarded : Bool} {result : Int} {t : Input} (hbase : base ≤ 36)
      (hletter : fscanf base ['x'.toUInt8] = .failed)
      (h : readLoop id base guarded fuel ['x'.toUInt8] ⟨fun _ => 0, 0, 0, []⟩ =
        some (.returned result t)) : False := by
    obtain ⟨ns, hns⟩ := numerals_of_returned hbase (running_start _) h
    exact hns.not_failed hbase hletter
  refine ⟨?_, ?_, ?_⟩
  · rintro ⟨fuel, result, t, h⟩
    exact hno (by decide) rfl h
  · rintro ⟨fuel, result, t, h⟩
    exact hno (by decide) rfl h
  · rintro ⟨fuel, result, t, h⟩
    exact hno (by decide) rfl h

end CompOrg.SortFile
