import CompOrg.FileIO.Scanning

/-! # How a file arrives

A file reaches the scanner in pieces of the sizes that `read` happens to return.
The scanner starts a new word with every piece, so it reads the words of the
file exactly when no cut between two pieces is inside a word.
-/

namespace CompOrg.FileIO

open Words

/-- A file whose words leave room in `str` for the terminating zero. -/
structure ShortWords where
  bytes : List UInt8
  short : ∀ w ∈ words isBlank bytes, w.length ≤ 9

/-- The results of the calls `read(fileDescriptor, buffer, 512)` up to the end of the file. -/
structure Delivery (f : ShortWords) where
  pieces : List (List UInt8)
  joined : pieces.flatten = f.bytes
  sizes : ∀ piece ∈ pieces, piece ≠ [] ∧ piece.length ≤ 512

variable {f : ShortWords} (readHex : Bool) (m : Fresh) (d : Delivery f)

namespace Delivery

/-- A cut between two pieces falls inside a word. -/
def SplitsWord : Prop := Words.SplitsWord isBlank d.pieces

def read : Option (Int × Reader) := readNumbers readHex m (some d.pieces)

/-- The integers of the words of each piece. -/
def integers : List Int := (d.pieces.flatMap (words isBlank)).map (toInteger readHex)

theorem short : ∀ piece ∈ d.pieces, ∀ w ∈ words isBlank piece, w.length ≤ 9 := by
  intro piece hpiece w hw
  obtain ⟨v, hv, hwv⟩ := exists_word_of_mem_flatten hpiece hw
  rw [d.joined] at hv
  exact hwv.length_le.trans (f.short v hv)

theorem length_integers : (d.integers readHex).length = (d.pieces.flatMap (words isBlank)).length :=
  List.length_map _

/-- The scanner returns the integers of the pieces' words, whatever `malloc` left in memory. -/
theorem read_spec :
    (∃ r, d.read readHex m = some (((d.integers readHex).length : Int), r) ∧
      Holds 9 r (d.integers readHex)) ∨
    (d.read readHex m = none ∧ capacity ≤ (d.integers readHex).length) := by
  have hyields : Yields 9 (readLoop readHex d.pieces m.buffer m.reader) (d.integers readHex) :=
    readLoop_yields (fun piece hpiece => (d.sizes piece hpiece).1) m.reader_holds d.short
  rcases hyields with ⟨r, hr, h⟩ | ⟨hnone, hcapacity⟩
  · left
    refine ⟨r, ?_, h⟩
    rw [read, readNumbers, hr, Option.map_some, h.numberRead]
  · right
    rw [read, readNumbers, hnone]
    exact ⟨rfl, hcapacity⟩

variable {readHex m d}

theorem read_eq_some {result : Int × Reader} (h : d.read readHex m = some result) :
    result.1 = (d.integers readHex).length ∧ stored result = d.integers readHex ∧
      (d.integers readHex).length < capacity := by
  rcases d.read_spec readHex m with ⟨r, hr, hholds⟩ | ⟨hnone, -⟩
  · obtain rfl := Option.some.inj (h.symm.trans hr)
    exact ⟨rfl, hholds.array, hholds.fits⟩
  · rw [hnone] at h
    cases h

/-- A word of a `ShortWords` file never overruns `str`. -/
theorem strStores_lt {result : Int × Reader} (h : d.read readHex m = some result) {k : Nat}
    (hk : .storeStr k ∈ result.2.accesses) : k < 9 := by
  rcases d.read_spec readHex m with ⟨r, hr, hholds⟩ | ⟨hnone, -⟩
  · obtain rfl := Option.some.inj (h.symm.trans hr)
    exact hholds.stores k hk
  · rw [hnone] at h
    cases h

variable (readHex m)

/-- Where no word is split, the file's words are read. -/
theorem integers_of_not_splitsWord (h : ¬ d.SplitsWord) :
    d.integers readHex = (words isBlank f.bytes).map (toInteger readHex) := by
  rw [integers, flatMap_words h, d.joined]

theorem read_words (h : ¬ d.SplitsWord) (hcapacity : (words isBlank f.bytes).length < capacity) :
    ∃ result, d.read readHex m = some result ∧
      stored result = (words isBlank f.bytes).map (toInteger readHex) ∧
      result.1 = (words isBlank f.bytes).length := by
  have hintegers := integers_of_not_splitsWord readHex h
  have hlength : (d.integers readHex).length = (words isBlank f.bytes).length := by
    rw [hintegers, List.length_map]
  rcases d.read_spec readHex m with ⟨r, hr, -⟩ | ⟨-, hfull⟩
  · obtain ⟨hcount, hstored, -⟩ := read_eq_some hr
    exact ⟨_, hr, hstored.trans hintegers, by rw [hcount, hlength]⟩
  · omega

theorem length_words_lt_integers (h : d.SplitsWord) :
    (words isBlank f.bytes).length < (d.integers readHex).length := by
  rw [length_integers, ← d.joined]
  exact length_words_flatten_lt h

end Delivery

/-! ## Two deliveries -/

/-- The same integers with the same count. -/
def SameReading (x y : Option (Int × Reader)) : Prop :=
  ∃ a b, x = some a ∧ y = some b ∧ stored a = stored b ∧ a.1 = b.1

def OnePerWord (f : ShortWords) (x : Option (Int × Reader)) : Prop :=
  ∃ a, x = some a ∧ a.1 = (words isBlank f.bytes).length

/-- Reading does not depend on the delivery exactly where neither delivery splits a word. -/
theorem sameReading_iff (f : ShortWords) (d e : Delivery f) (readHex : Bool) (m n : Fresh) :
    (SameReading (d.read readHex m) (e.read readHex n) ∧ OnePerWord f (d.read readHex m)) ↔
      ¬ d.SplitsWord ∧ ¬ e.SplitsWord ∧ (words isBlank f.bytes).length < capacity := by
  constructor
  · rintro ⟨⟨a, b, ha, hb, -, hcount⟩, c, hc, hwords⟩
    obtain rfl := Option.some.inj (ha.symm.trans hc)
    obtain ⟨hd, -, hfits⟩ := Delivery.read_eq_some ha
    obtain ⟨he, -, -⟩ := Delivery.read_eq_some hb
    refine ⟨fun hsplit => ?_, fun hsplit => ?_, by omega⟩
    · have hlt := Delivery.length_words_lt_integers readHex hsplit
      omega
    · have hlt := Delivery.length_words_lt_integers readHex hsplit
      omega
  · rintro ⟨hd, he, hcapacity⟩
    obtain ⟨a, ha, hastored, hacount⟩ := Delivery.read_words readHex m hd hcapacity
    obtain ⟨b, hb, hbstored, hbcount⟩ := Delivery.read_words readHex n he hcapacity
    exact ⟨⟨a, b, ha, hb, hastored.trans hbstored.symm, hacount.trans hbcount.symm⟩,
      a, ha, hacount⟩

/-- The file `12`. -/
def twelve : ShortWords := ⟨['1'.toUInt8, '2'.toUInt8], by decide⟩

def twelveAtOnce : Delivery twelve := ⟨[twelve.bytes], by decide, by decide⟩

def twelveByByte : Delivery twelve := ⟨twelve.bytes.map fun b => [b], by decide, by decide⟩

theorem exists_not_sameReading :
    ¬ ∀ (f : ShortWords) (d e : Delivery f) (readHex : Bool) (m n : Fresh),
      SameReading (d.read readHex m) (e.read readHex n) := by
  intro h
  let zero : Fresh := ⟨fun _ => 0, fun _ => 0⟩
  obtain ⟨a, b, ha, hb, hstored, -⟩ := h twelve twelveAtOnce twelveByByte false zero zero
  have hone : (twelveAtOnce.read false zero).map stored = some [12] := by decide
  have htwo : (twelveByByte.read false zero).map stored = some [1, 2] := by decide
  rw [ha, Option.map_some, hstored] at hone
  rw [hb, Option.map_some, hone] at htwo
  cases htwo

end CompOrg.FileIO
