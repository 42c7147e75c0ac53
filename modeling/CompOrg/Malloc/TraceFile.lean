import CompOrg.Lib.Fscanf
import CompOrg.Malloc.Evaluation

/-! # Reading a trace file

`read_trace` takes four integers and then one request after the other, a word and one
or two numbers, up to the end of the file. A conversion that fails leaves its variable
as it was, and only the largest index of an `a` or `r` request is compared with the
header. The program is built for 32 bits, so the sizes of the arrays are products modulo
`2 ^ 32`. A number out of range, a word that is too long for `type` and a request behind the
end of `ops` are undefined, which is `none`.
-/

namespace CompOrg.Malloc

def MAXLINE : Nat := 1024

inductive Reading
  | trace (t : Trace)
  /-- `exit(1)` after the message about the character. -/
  | bogus (c : UInt8)
  /-- A failed assertion. -/
  | aborted
  /-- `unix_error(msg)` -/
  | unixError (msg : String)
  deriving DecidableEq

/-- `fscanf(.., "%d", ..)`; `left` is what a conversion that fails leaves. -/
def scanInt (left : List UInt8 → List UInt8) (old : Int) (s : List UInt8) :
    Option (Int × List UInt8) :=
  match fscanf 10 s with
  | .matched n rest => (intResult n).map fun n => (n, rest)
  | .failed => some (old, left s)
  | .eof => some (old, [])

/-- `"%u"`, and whether it matched. A minus sign negates in `unsigned`. -/
def scanUnsigned (left : List UInt8 → List UInt8) (old : Nat) (s : List UInt8) :
    Option (Bool × Nat × List UInt8) :=
  match fscanf 10 s with
  | .matched n rest =>
      if n.natAbs < 2 ^ 32 then some (true, (n % 2 ^ 32).toNat, rest) else none
  | .failed => some (false, old, left s)
  | .eof => some (false, old, [])

/-- A second `"%u"` of the same call, which is not tried when the first one failed. -/
def scanNext (matched : Bool) (left : List UInt8 → List UInt8) (old : Nat) (s : List UInt8) :
    Option (Bool × Nat × List UInt8) :=
  if matched then scanUnsigned left old s else some (false, old, s)

/-- `"%s"`, with no result at the end of the file. -/
def scanWord (s : List UInt8) : Option (List UInt8 × List UInt8) :=
  let s := s.dropWhile isspace
  if s = [] then none
  else some (s.takeWhile fun c => !isspace c, s.dropWhile fun c => !isspace c)

/-- The variables of the loop; `ops` is what has been stored. -/
structure Requests where
  index : Nat
  size : Nat
  maxIndex : Nat
  ops : List TraceOp

def sizeofTraceop : Nat := 12

/-- The fields are stored at `ops[op_index]`, inside of the block of `room` bytes. -/
def Requests.store (r : Requests) (room : Nat) (op : TraceOp) : Option Requests :=
  if sizeofTraceop * (r.ops.length + 1) ≤ room then some { r with ops := r.ops ++ [op] } else none

/-- The requests with two numbers, `"%u %u"`. -/
def readSized (left : List UInt8 → List UInt8) (room : Nat) (type : OpType) (r : Requests)
    (s : List UInt8) : Option (Requests × List UInt8) := do
  let (matched, index, s) ← scanUnsigned left r.index s
  let (_, size, s) ← scanNext matched left r.size s
  let r := { r with index := index, size := size }
  let r ← r.store room ⟨type, toInt index, toInt size⟩
  return ({ r with maxIndex := if index > r.maxIndex then index else r.maxIndex }, s)

/-- `"%ud"`: the format goes on with the letter `d`. -/
def readFree (left : List UInt8 → List UInt8) (room : Nat) (size : Int) (r : Requests)
    (s : List UInt8) : Option (Requests × List UInt8) := do
  let (matched, index, s) ← scanUnsigned left r.index s
  let s := if matched ∧ s.head? = some 'd'.toUInt8 then s.tail else s
  let r := { r with index := index }
  let r ← r.store room ⟨.free, toInt index, size⟩
  return (r, s)

/-- The loop over the requests; `stale k` is what the array held as the size of
request `k`. -/
def readRequests (left : List UInt8 → List UInt8) (room : Nat) (stale : Nat → Int) :
    Nat → Requests → List UInt8 → Option (Except UInt8 Requests)
  | 0, _, _ => none
  | fuel + 1, r, s =>
      match scanWord s with
      | none => some (.ok r)
      | some (type, s) =>
          if MAXLINE ≤ type.length then none
          else
            let c := type.headD 0
            if c = 'a'.toUInt8 then
              (readSized left room .alloc r s).bind fun (r, s) =>
                readRequests left room stale fuel r s
            else if c = 'r'.toUInt8 then
              (readSized left room .realloc r s).bind fun (r, s) =>
                readRequests left room stale fuel r s
            else if c = 'f'.toUInt8 then
              (readFree left room (stale r.ops.length) r s).bind fun (r, s) =>
                readRequests left room stale fuel r s
            else some (.error c)

/-- What the memory of the record, of `size` and of the array held before. -/
structure Stale where
  suggHeapsize : Int
  numIds : Int
  numOps : Int
  weight : Int
  size : Nat
  sizes : Nat → Int

def sizeofTrace : Nat := 28

/-- The size of a pointer and of a `size_t`. -/
def sizeofWord : Nat := 4

def arrayBytes (n : Int) (sizeof : Nat) : Nat := (n * sizeof % 2 ^ 32).toNat

/-- The message about the first of the three arrays that cannot be allocated; `malloc k` tells
for which sizes call number `k` succeeds. -/
def refused (malloc : Nat → Nat → Bool) (numIds numOps : Int) : Option String :=
  if !malloc 2 (arrayBytes numOps sizeofTraceop) then some "malloc 2 failed in read_trace"
  else if !malloc 3 (arrayBytes numIds sizeofWord) then some "malloc 3 failed in read_trace"
  else if !malloc 4 (arrayBytes numIds sizeofWord) then some "malloc 4 failed in read_trace"
  else none

/-- A request takes at least one character, so the file has fewer than the fuel. -/
def readTrace (malloc : Nat → Nat → Bool) (left : List UInt8 → List UInt8) (stale : Stale)
    (file : List UInt8) : Option Reading := do
  if !malloc 1 sizeofTrace then return .unixError "malloc 1 failed in read_trance"
  let (_, s) ← scanInt left stale.suggHeapsize file
  let (numIds, s) ← scanInt left stale.numIds s
  let (numOps, s) ← scanInt left stale.numOps s
  let (_, s) ← scanInt left stale.weight s
  match refused malloc numIds numOps with
  | some msg => return .unixError msg
  | none =>
      match ← readRequests left (arrayBytes numOps sizeofTraceop) stale.sizes (file.length + 1)
        ⟨0, stale.size, 0, []⟩ s with
      | .error c => return .bogus c
      | .ok r => do
          let last ← intResult (numIds - 1)
          if (r.maxIndex : Int) ≠ last % 2 ^ 32 then return .aborted
          else if numOps % 2 ^ 32 ≠ r.ops.length then return .aborted
          else return .trace ⟨numIds, r.ops⟩

/-! ## What is accepted -/

section Sound

variable {malloc : Nat → Nat → Bool} {left : List UInt8 → List UInt8} {r r' : Requests}
  {s s' : List UInt8} {room : Nat}

theorem scanUnsigned_lt {old n : Nat} {matched : Bool} (hold : old < 2 ^ 32)
    (h : scanUnsigned left old s = some (matched, n, s')) : n < 2 ^ 32 := by
  unfold scanUnsigned at h
  split at h
  next n' rest _ =>
    split at h
    next =>
      simp only [Option.some.injEq, Prod.mk.injEq] at h
      omega
    next => cases h
  next =>
    simp only [Option.some.injEq, Prod.mk.injEq] at h
    omega
  next =>
    simp only [Option.some.injEq, Prod.mk.injEq] at h
    omega

/-- `max_index` is the largest index of the requests that allocate, and 0 if there is
none. -/
structure MaxIndex (r : Requests) : Prop where
  index : r.index < 2 ^ 32
  max : r.maxIndex < 2 ^ 32
  bound : ∀ op ∈ r.ops, op.type ≠ .free → ∃ i ≤ r.maxIndex, op.index = toInt i
  attained : r.maxIndex = 0 ∨ ∃ op ∈ r.ops, op.type ≠ .free ∧ op.index = toInt r.maxIndex

theorem Requests.store_some {op : TraceOp} (h : r.store room op = some r') :
    r' = { r with ops := r.ops ++ [op] } := by
  unfold store at h
  split at h
  next => exact (Option.some.inj h).symm
  next => cases h

theorem readSized_maxIndex {type : OpType} (M : MaxIndex r) (htype : type ≠ .free)
    (h : readSized left room type r s = some (r', s')) : MaxIndex r' := by
  simp only [readSized, Option.bind_eq_bind, Option.bind_eq_some_iff, Option.pure_def,
    Option.some.injEq, Prod.mk.injEq, Prod.exists] at h
  obtain ⟨matched, i, s₁, hindex, -, size, s₂, -, q, hstore, rfl, -⟩ := h
  have hlt := scanUnsigned_lt M.index hindex
  obtain rfl := Requests.store_some hstore
  have hle : ∀ n, (if n > r.maxIndex then n else r.maxIndex) = max n r.maxIndex := by
    intro n
    split <;> omega
  refine ⟨hlt, ?_, ?_, ?_⟩
  · dsimp only
    have := M.max
    split <;> omega
  · intro op hop hne
    dsimp only
    rw [hle]
    rcases List.mem_append.mp hop with hop | hop
    · obtain ⟨j, hj, heq⟩ := M.bound op hop hne
      exact ⟨j, hj.trans (le_max_right _ _), heq⟩
    · rw [List.mem_singleton.mp hop]
      exact ⟨i, le_max_left _ _, rfl⟩
  · dsimp only
    split
    next => exact Or.inr ⟨_, List.mem_append_right _ List.mem_cons_self, htype, rfl⟩
    next =>
      refine M.attained.imp_right ?_
      rintro ⟨op, hop, hne, heq⟩
      exact ⟨op, List.mem_append_left _ hop, hne, heq⟩

theorem readFree_maxIndex {size : Int} (M : MaxIndex r)
    (h : readFree left room size r s = some (r', s')) : MaxIndex r' := by
  simp only [readFree, Option.bind_eq_bind, Option.bind_eq_some_iff, Option.pure_def,
    Option.some.injEq, Prod.mk.injEq, Prod.exists] at h
  obtain ⟨matched, i, s₁, hindex, q, hstore, rfl, -⟩ := h
  have hlt := scanUnsigned_lt M.index hindex
  obtain rfl := Requests.store_some hstore
  refine ⟨hlt, M.max, ?_, ?_⟩
  · intro op hop hne
    rcases List.mem_append.mp hop with hop | hop
    · exact M.bound op hop hne
    · rw [List.mem_singleton.mp hop] at hne
      exact (hne rfl).elim
  · refine M.attained.imp_right ?_
    rintro ⟨op, hop, hne, heq⟩
    exact ⟨op, List.mem_append_left _ hop, hne, heq⟩

theorem readRequests_maxIndex {stale : Nat → Int} {fuel : Nat} (M : MaxIndex r)
    (h : readRequests left room stale fuel r s = some (.ok r')) : MaxIndex r' := by
  induction fuel generalizing r s with
  | zero => cases h
  | succ fuel ih =>
      rw [readRequests] at h
      split at h
      next =>
        cases h
        exact M
      next type s₁ _ =>
        split at h
        next => cases h
        next =>
          dsimp only at h
          split at h
          next =>
            obtain ⟨⟨q, s₂⟩, hread, h⟩ := Option.bind_eq_some_iff.mp h
            exact ih (readSized_maxIndex M (by decide) hread) h
          split at h
          next =>
            obtain ⟨⟨q, s₂⟩, hread, h⟩ := Option.bind_eq_some_iff.mp h
            exact ih (readSized_maxIndex M (by decide) hread) h
          split at h
          next =>
            obtain ⟨⟨q, s₂⟩, hread, h⟩ := Option.bind_eq_some_iff.mp h
            exact ih (readFree_maxIndex M hread) h
          next => cases h

/-- The assertion about `max_index`, in a trace with at least one id. -/
theorem readTrace_maxIndex {stale : Stale} {file : List UInt8} {t : Trace}
    (h : readTrace malloc left stale file = some (.trace t)) (hids : 0 < t.numIds) :
    ∃ r, MaxIndex r ∧ r.ops = t.ops ∧ (r.maxIndex : Int) = t.numIds - 1 ∧
      t.numIds ≤ 2 ^ 31 := by
  simp only [readTrace] at h
  split at h
  next => cases h
  simp only [Option.bind_eq_bind, Option.bind_eq_some_iff, Prod.exists] at h
  obtain ⟨a, s₁, -, numIds, s₂, -, numOps, s₃, -, b, s₄, -, h⟩ := h
  split at h
  next => cases h
  simp only [Option.bind_eq_some_iff] at h
  obtain ⟨res, hread, h⟩ := h
  cases res with
  | error c => cases h
  | ok r =>
      have M := readRequests_maxIndex (r := ⟨0, stale.size, 0, []⟩)
        ⟨Nat.two_pow_pos 32, Nat.two_pow_pos 32, fun op hop => by simp at hop, Or.inl rfl⟩ hread
      simp only [Option.bind_eq_some_iff] at h
      obtain ⟨last, hlast, h⟩ := h
      split at h
      next => cases h
      next hmax =>
        split at h
        next => cases h
        next =>
          cases h
          dsimp only at hids ⊢
          unfold intResult at hlast
          split at hlast
          next hrange =>
            obtain rfl := Option.some.inj hlast
            have hlt := M.max
            exact ⟨r, M, rfl, by omega, by omega⟩
          next => cases hlast

/-- In a trace that is accepted with at least one id, the requests that allocate name
ids of the trace only, and one of them names the last id unless there is one id. So they
stay inside of `blocks` and `block_sizes` unless the sizes of these have wrapped. The index of
a `free` request is not looked at. -/
theorem readTrace_indices {stale : Stale} {file : List UInt8} {t : Trace}
    (h : readTrace malloc left stale file = some (.trace t)) (hids : 0 < t.numIds) :
    (∀ op ∈ t.ops, op.type ≠ .free → 0 ≤ op.index ∧ op.index < t.numIds) ∧
      (t.numIds = 1 ∨ ∃ op ∈ t.ops, op.type ≠ .free ∧ op.index = t.numIds - 1) ∧
      ((∀ op ∈ t.ops, op.type ≠ .free →
          (op.index + 1) * sizeofWord ≤ arrayBytes t.numIds sizeofWord) ↔
        t.numIds < 2 ^ 30) := by
  obtain ⟨r, M, hops, hmax, hle⟩ := readTrace_maxIndex h hids
  have hint : ∀ i ≤ r.maxIndex, toInt i = i := fun i hi => toInt_of_lt (by omega)
  have hbound : ∀ op ∈ t.ops, op.type ≠ .free → 0 ≤ op.index ∧ op.index < t.numIds := by
    intro op hop hne
    obtain ⟨i, hi, hop⟩ := M.bound op (hops ▸ hop) hne
    rw [hop, hint i hi]
    omega
  have hlast : t.numIds = 1 ∨ ∃ op ∈ t.ops, op.type ≠ .free ∧ op.index = t.numIds - 1 := by
    rcases M.attained with hzero | ⟨op, hop, hne, hidx⟩
    · exact Or.inl (by omega)
    · exact Or.inr ⟨op, hops ▸ hop, hne, by rw [hidx, hint _ (le_refl _), hmax]⟩
  refine ⟨hbound, hlast, ?_, ?_⟩
  · intro hall
    rcases hlast with hone | ⟨op, hop, hne, hidx⟩
    · omega
    · have hroom := hall op hop hne
      unfold arrayBytes sizeofWord at hroom
      omega
  · intro hlt op hop hne
    obtain ⟨h0, hindex⟩ := hbound op hop hne
    unfold arrayBytes sizeofWord
    omega

end Sound

/-! ## What is read -/

/-- A word that is the numeral of a non-negative `int`. -/
structure IntWord (w : List UInt8) (n : Int) : Prop where
  numeral : Matches 10 w [] n
  nonneg : 0 ≤ n
  lt : n < 2 ^ 31

/-- A word that fits into `type` and begins with `c`; the rest of it is not looked at. -/
def TypeWord (c : UInt8) (w : List UInt8) : Prop := w.head? = some c ∧ w.length < MAXLINE

/-- The words of the requests from number `k` on. -/
inductive RequestWords (stale : Nat → Int) : Nat → List TraceOp → List (List UInt8) → Prop
  | nil {k} : RequestWords stale k [] []
  | alloc {k w v x i n ops ws} : TypeWord 'a'.toUInt8 w → IntWord v i → IntWord x n →
      RequestWords stale (k + 1) ops ws →
      RequestWords stale k (⟨.alloc, i, n⟩ :: ops) (w :: v :: x :: ws)
  | realloc {k w v x i n ops ws} : TypeWord 'r'.toUInt8 w → IntWord v i → IntWord x n →
      RequestWords stale (k + 1) ops ws →
      RequestWords stale k (⟨.realloc, i, n⟩ :: ops) (w :: v :: x :: ws)
  | free {k w v i ops ws} : TypeWord 'f'.toUInt8 w → IntWord v i →
      RequestWords stale (k + 1) ops ws →
      RequestWords stale k (⟨.free, i, stale k⟩ :: ops) (w :: v :: ws)

def maxIndexOf : Nat → List TraceOp → Nat
  | m, [] => m
  | m, op :: ops => maxIndexOf (if op.type = .free then m else max op.index.toNat m) ops

section Complete

variable (left : List UInt8 → List UInt8) {stale : Nat → Int} {r : Requests}
  {s w : List UInt8} {ws : List (List UInt8)} {n : Int} {old room : Nat}

theorem fscanf_word (h : Words.words isspace s = w :: ws) (hw : Matches 10 w [] n) :
    ∃ rest, fscanf 10 s = .matched n rest ∧ (∀ c ∈ rest.head?, isspace c = true) ∧
      Words.words isspace rest = ws := by
  obtain ⟨front, rest, rfl, hfront, -, -, hrest, hws⟩ := Words.exists_of_words_cons h
  exact ⟨rest, fscanf_numeral (by decide) hfront (hw.append (by decide) (by decide) hrest), hrest,
    hws⟩

theorem scanInt_word (h : Words.words isspace s = w :: ws) (hw : Matches 10 w [] n)
    (hrange : intResult n = some n) (old : Int) :
    ∃ rest, scanInt left old s = some (n, rest) ∧ Words.words isspace rest = ws := by
  obtain ⟨rest, hscan, -, hws⟩ := fscanf_word h hw
  exact ⟨rest, by rw [scanInt, hscan]; simp [hrange], hws⟩

theorem scanUnsigned_word (h : Words.words isspace s = w :: ws) (hw : IntWord w n) (old : Nat) :
    ∃ rest, scanUnsigned left old s = some (true, n.toNat, rest) ∧
      (∀ c ∈ rest.head?, isspace c = true) ∧ Words.words isspace rest = ws := by
  obtain ⟨rest, hscan, hhead, hws⟩ := fscanf_word h hw.numeral
  have hnonneg := hw.nonneg
  have hlt := hw.lt
  refine ⟨rest, ?_, hhead, hws⟩
  rw [scanUnsigned, hscan]
  dsimp only
  rw [if_pos (by omega), Int.emod_eq_of_lt hnonneg (by omega)]

theorem scanWord_word (h : Words.words isspace s = w :: ws) :
    ∃ rest, scanWord s = some (w, rest) ∧ Words.words isspace rest = ws := by
  obtain ⟨front, rest, rfl, hfront, hne, hsep, hrest, hws⟩ := Words.exists_of_words_cons h
  have hdrop : (front ++ (w ++ rest)).dropWhile isspace = w ++ rest := by
    refine dropWhile_run hfront fun c hc => ?_
    rw [List.head?_append_of_ne_nil _ hne] at hc
    exact hsep c (List.mem_of_mem_head? hc)
  have hrun : ∀ c ∈ w, (!isspace c) = true := fun c hc => by simp [hsep c hc]
  have hend : ∀ c ∈ rest.head?, (!isspace c) = false := fun c hc => by simp [hrest c hc]
  refine ⟨rest, ?_, hws⟩
  rw [scanWord, hdrop, if_neg (by simp [hne]), takeWhile_run hrun hend, dropWhile_run hrun hend]

theorem scanWord_nil (h : Words.words isspace s = []) : scanWord s = none := by
  rw [scanWord]
  exact if_pos (List.dropWhile_eq_nil_iff.mpr (Words.words_eq_nil_iff.mp h))

theorem toInt_toNat (h0 : 0 ≤ n) (hlt : n < 2 ^ 31) : toInt n.toNat = n := by
  rw [toInt_of_lt (by omega)]
  omega

theorem readSized_words {v x : List UInt8} {i : Int} (type : OpType)
    (h : Words.words isspace s = v :: x :: ws) (hv : IntWord v i) (hx : IntWord x n)
    (hroom : sizeofTraceop * (r.ops.length + 1) ≤ room) :
    ∃ rest, readSized left room type r s =
        some (⟨i.toNat, n.toNat, max i.toNat r.maxIndex, r.ops ++ [⟨type, i, n⟩]⟩, rest) ∧
      Words.words isspace rest = ws := by
  obtain ⟨s₁, hindex, -, hs₁⟩ := scanUnsigned_word left h hv r.index
  obtain ⟨s₂, hsize, -, hs₂⟩ := scanUnsigned_word left hs₁ hx r.size
  refine ⟨s₂, ?_, hs₂⟩
  have hmax : (if i.toNat > r.maxIndex then i.toNat else r.maxIndex) = max i.toNat r.maxIndex := by
    split <;> omega
  simp only [readSized, hindex, scanNext, if_true, hsize, Option.bind_eq_bind, Option.bind_some,
    Requests.store, if_pos hroom, toInt_toNat hv.nonneg hv.lt, toInt_toNat hx.nonneg hx.lt,
    Option.pure_def, hmax]

theorem readFree_words {v : List UInt8} {i : Int} (size : Int)
    (h : Words.words isspace s = v :: ws) (hv : IntWord v i)
    (hroom : sizeofTraceop * (r.ops.length + 1) ≤ room) :
    ∃ rest, readFree left room size r s =
        some (⟨i.toNat, r.size, r.maxIndex, r.ops ++ [⟨.free, i, size⟩]⟩, rest) ∧
      Words.words isspace rest = ws := by
  obtain ⟨s₁, hindex, hhead, hs₁⟩ := scanUnsigned_word left h hv r.index
  refine ⟨s₁, ?_, hs₁⟩
  have hd : ¬ s₁.head? = some 'd'.toUInt8 := by
    intro hd
    have := hhead _ hd
    revert this
    decide
  simp only [readFree, hindex, hd, and_false, if_false, Option.bind_eq_bind, Option.bind_some,
    Requests.store, if_pos hroom, toInt_toNat hv.nonneg hv.lt, Option.pure_def]

theorem readSized_full {v x : List UInt8} {i : Int} (type : OpType)
    (h : Words.words isspace s = v :: x :: ws) (hv : IntWord v i) (hx : IntWord x n)
    (hfull : ¬ sizeofTraceop * (r.ops.length + 1) ≤ room) :
    readSized left room type r s = none := by
  obtain ⟨s₁, hindex, -, hs₁⟩ := scanUnsigned_word left h hv r.index
  obtain ⟨s₂, hsize, -, hs₂⟩ := scanUnsigned_word left hs₁ hx r.size
  simp only [readSized, hindex, scanNext, if_true, hsize, Option.bind_eq_bind, Option.bind_some,
    Requests.store, if_neg hfull, Option.bind_none]

theorem readFree_full {v : List UInt8} {i : Int} (size : Int)
    (h : Words.words isspace s = v :: ws) (hv : IntWord v i)
    (hfull : ¬ sizeofTraceop * (r.ops.length + 1) ≤ room) : readFree left room size r s = none := by
  obtain ⟨s₁, hindex, hhead, hs₁⟩ := scanUnsigned_word left h hv r.index
  simp only [readFree, hindex, Option.bind_eq_bind, Option.bind_some, Requests.store,
    if_neg hfull, Option.bind_none]

theorem TypeWord.type {c : UInt8} (h : TypeWord c w) : w.headD 0 = c ∧ ¬ MAXLINE ≤ w.length := by
  obtain ⟨hhead, hlen⟩ := h
  refine ⟨?_, by omega⟩
  cases w with
  | nil => cases hhead
  | cons d w => exact Option.some.inj hhead

/-- One request of a file, with room in the array or without. -/
theorem readRequests_step {op : TraceOp} {ops : List TraceOp} (fuel : Nat)
    (hops : RequestWords stale r.ops.length (op :: ops) (Words.words isspace s)) :
    (sizeofTraceop * (r.ops.length + 1) ≤ room → ∃ q rest,
      readRequests left room stale (fuel + 1) r s =
          readRequests left room stale fuel q rest ∧
        q.ops = r.ops ++ [op] ∧
        q.maxIndex = (if op.type = .free then r.maxIndex else max op.index.toNat r.maxIndex) ∧
        RequestWords stale q.ops.length ops (Words.words isspace rest)) ∧
      (¬ sizeofTraceop * (r.ops.length + 1) ≤ room →
        readRequests left room stale (fuel + 1) r s = none) := by
  generalize hws : Words.words isspace s = ws at hops
  cases hops with
  | @alloc _ w v x i n _ ws hw hv hx hops =>
      obtain ⟨hc, hlen⟩ := hw.type
      obtain ⟨s₁, hword, hs₁⟩ := scanWord_word hws
      refine ⟨fun hroom => ?_, fun hfull => ?_⟩
      · obtain ⟨rest, hread, hrest⟩ := readSized_words left .alloc hs₁ hv hx hroom
        refine ⟨⟨i.toNat, n.toNat, max i.toNat r.maxIndex, _⟩, rest, ?_, rfl, by simp, ?_⟩
        · simp only [readRequests, hword, if_neg hlen, hc, if_true, hread, Option.bind_some]
        · rw [hrest, List.length_append]
          exact hops
      · simp only [readRequests, hword, if_neg hlen, hc, if_true,
          readSized_full left .alloc hs₁ hv hx hfull, Option.bind_none]
  | @realloc _ w v x i n _ ws hw hv hx hops =>
      obtain ⟨hc, hlen⟩ := hw.type
      obtain ⟨s₁, hword, hs₁⟩ := scanWord_word hws
      have hne : ¬ 'r'.toUInt8 = 'a'.toUInt8 := by decide
      refine ⟨fun hroom => ?_, fun hfull => ?_⟩
      · obtain ⟨rest, hread, hrest⟩ := readSized_words left .realloc hs₁ hv hx hroom
        refine ⟨⟨i.toNat, n.toNat, max i.toNat r.maxIndex, _⟩, rest, ?_, rfl, by simp, ?_⟩
        · simp only [readRequests, hword, if_neg hlen, hc, hne, if_true, if_false, hread,
            Option.bind_some]
        · rw [hrest, List.length_append]
          exact hops
      · simp only [readRequests, hword, if_neg hlen, hc, hne, if_true, if_false,
          readSized_full left .realloc hs₁ hv hx hfull, Option.bind_none]
  | @free _ w v i _ ws hw hv hops =>
      obtain ⟨hc, hlen⟩ := hw.type
      obtain ⟨s₁, hword, hs₁⟩ := scanWord_word hws
      have hne : ¬ 'f'.toUInt8 = 'a'.toUInt8 := by decide
      have hne' : ¬ 'f'.toUInt8 = 'r'.toUInt8 := by decide
      refine ⟨fun hroom => ?_, fun hfull => ?_⟩
      · obtain ⟨rest, hread, hrest⟩ := readFree_words left (stale r.ops.length) hs₁ hv hroom
        refine ⟨⟨i.toNat, r.size, r.maxIndex, _⟩, rest, ?_, rfl, by simp, ?_⟩
        · simp only [readRequests, hword, if_neg hlen, hc, hne, hne', if_true, if_false, hread,
            Option.bind_some]
        · rw [hrest, List.length_append]
          exact hops
      · simp only [readRequests, hword, if_neg hlen, hc, hne, hne', if_true, if_false,
          readFree_full left _ hs₁ hv hfull, Option.bind_none]

theorem readRequests_words {ops : List TraceOp} {fuel : Nat}
    (hops : RequestWords stale r.ops.length ops (Words.words isspace s))
    (hroom : sizeofTraceop * (r.ops.length + ops.length) ≤ room) (hfuel : ops.length < fuel) :
    ∃ r', readRequests left room stale fuel r s = some (.ok r') ∧
      r'.ops = r.ops ++ ops ∧ r'.maxIndex = maxIndexOf r.maxIndex ops := by
  induction ops generalizing r s fuel with
  | nil =>
      obtain ⟨fuel, rfl⟩ : ∃ m, fuel = m + 1 := ⟨fuel - 1, by simp at hfuel; omega⟩
      generalize hws : Words.words isspace s = ws at hops
      cases hops
      refine ⟨r, ?_, (List.append_nil _).symm, rfl⟩
      rw [readRequests, scanWord_nil hws]
  | cons op ops ih =>
      obtain ⟨fuel, rfl⟩ : ∃ m, fuel = m + 1 := ⟨fuel - 1, by simp at hfuel; omega⟩
      rw [List.length_cons] at hroom hfuel
      have hstore : sizeofTraceop * (r.ops.length + 1) ≤ room :=
        (Nat.mul_le_mul_left _ (by omega)).trans hroom
      obtain ⟨q, rest, hstep, hq, hmax, hrest⟩ := (readRequests_step left fuel hops).1 hstore
      have hlen : q.ops.length = r.ops.length + 1 := by rw [hq]; simp
      have hrestroom : sizeofTraceop * (q.ops.length + ops.length) ≤ room := by
        rwa [hlen, Nat.add_assoc, Nat.add_comm 1]
      obtain ⟨r', hread, hr', hm⟩ := ih hrest hrestroom (show ops.length < fuel by omega)
      exact ⟨r', by rw [hstep, hread], by rw [hr', hq, List.append_assoc]; rfl,
        by rw [hm, hmax, maxIndexOf]⟩

/-- A request for which the array has no room is written behind its end. -/
theorem readRequests_overflow {ops : List TraceOp} {fuel : Nat}
    (hops : RequestWords stale r.ops.length ops (Words.words isspace s))
    (hroom : sizeofTraceop * r.ops.length ≤ room)
    (hfull : room < sizeofTraceop * (r.ops.length + ops.length)) :
    readRequests left room stale fuel r s = none := by
  induction ops generalizing r s fuel with
  | nil => exact absurd hfull (not_lt.mpr hroom)
  | cons op ops ih =>
      cases fuel with
      | zero => rfl
      | succ fuel =>
          rw [List.length_cons] at hfull
          by_cases hstore : sizeofTraceop * (r.ops.length + 1) ≤ room
          · obtain ⟨q, rest, hstep, hq, -, hrest⟩ :=
              (readRequests_step left fuel hops).1 hstore
            have hlen : q.ops.length = r.ops.length + 1 := by rw [hq]; simp
            rw [hstep]
            refine ih hrest (by rwa [hlen]) ?_
            rwa [hlen, Nat.add_assoc, Nat.add_comm 1]
          · exact (readRequests_step left fuel hops).2 hstore

theorem RequestWords.length_le {k : Nat} {ops : List TraceOp} (h : RequestWords stale k ops ws) :
    ops.length ≤ ws.length := by
  induction h with
  | nil => exact Nat.le_refl _
  | alloc _ _ _ _ ih | realloc _ _ _ _ ih | free _ _ _ ih =>
      simp only [List.length_cons]
      omega

theorem RequestWords.maxIndexOf_lt {k m : Nat} {ops : List TraceOp}
    (h : RequestWords stale k ops ws) (hm : m < 2 ^ 31) : maxIndexOf m ops < 2 ^ 31 := by
  induction h generalizing m with
  | nil => exact hm
  | alloc _ hv _ _ ih | realloc _ hv _ _ ih =>
      have := hv.lt
      rw [maxIndexOf]
      refine ih ?_
      rw [if_neg (by simp)]
      dsimp only
      omega
  | free _ _ _ ih =>
      rw [maxIndexOf]
      exact ih hm

structure HeaderWord (w : List UInt8) (n : Int) : Prop where
  numeral : Matches 10 w [] n
  range : -2147483648 ≤ n ∧ n ≤ 2147483647

theorem HeaderWord.scan {n : Int} (h : HeaderWord w n) (hs : Words.words isspace s = w :: ws)
    (old : Int) :
    ∃ rest, scanInt left old s = some (n, rest) ∧ Words.words isspace rest = ws :=
  scanInt_word left hs h.numeral (intResult_eq_some h.range.1 h.range.2) old

theorem arrayBytes_lt (n : Int) (sizeof : Nat) : arrayBytes n sizeof < 2 ^ 32 := by
  unfold arrayBytes
  omega

end Complete

def bytes (s : String) : List UInt8 := s.toList.map fun c => UInt8.ofNat c.toNat

/-- A file in its usual layout, with a longer word for one of the requests. -/
def sampleFile : List UInt8 := bytes "20000\n2 4\n-1\na 0 5\nalloc 1 7\nr 0 12\nf 1\n"

def sampleOps : List TraceOp :=
  [⟨.alloc, 0, 5⟩, ⟨.alloc, 1, 7⟩, ⟨.realloc, 0, 12⟩, ⟨.free, 1, 42⟩]

def sampleStale : Stale := ⟨1, 2, 3, 4, 5, fun _ => 42⟩

/-- A block of half of the memory or more is refused. -/
def belowHalf (_ size : Nat) : Bool := size < 2 ^ 31

theorem sampleFile_indices :
    (∀ op ∈ sampleOps, op.type ≠ .free → 0 ≤ op.index ∧ op.index < 2) ∧
      ((2 : Int) = 1 ∨ ∃ op ∈ sampleOps, op.type ≠ .free ∧ op.index = 2 - 1) ∧
      ((∀ op ∈ sampleOps, op.type ≠ .free →
          (op.index + 1) * sizeofWord ≤ arrayBytes 2 sizeofWord) ↔
        (2 : Int) < 2 ^ 30) :=
  readTrace_indices (t := ⟨2, sampleOps⟩)
    (show readTrace belowHalf id sampleStale sampleFile = _ by decide +kernel) (by decide)

/-- A negative number of ids asks for almost all of the memory. -/
example : readTrace belowHalf id sampleStale (bytes "1 -5 1 1\na 0 5\n") =
    some (.unixError "malloc 3 failed in read_trace") := by decide +kernel

end CompOrg.Malloc
