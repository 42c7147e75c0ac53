import Mathlib.Data.Nat.Bitwise
import Mathlib.Algebra.Order.Group.Nat

/-! # Byte-addressed memory with little-endian 32-bit words

Memory is a total function from addresses to bytes. A word occupies four
consecutive bytes, so a read is determined by those four bytes and a write leaves
every other byte alone. `SameOutside` is the frame relation: two memories that
may differ only on an interval of addresses.
-/

namespace CompOrg

abbrev Memory := Nat → UInt8

namespace Memory

def readWord (m : Memory) (a : Nat) : Nat :=
  (m a).toNat + 2 ^ 8 * (m (a + 1)).toNat + 2 ^ 16 * (m (a + 2)).toNat +
    2 ^ 24 * (m (a + 3)).toNat

/-- The stored word is `v` modulo `2 ^ 32`. -/
def writeWord (m : Memory) (a v : Nat) : Memory := fun x =>
  if x = a then UInt8.ofNat v
  else if x = a + 1 then UInt8.ofNat (v / 2 ^ 8)
  else if x = a + 2 then UInt8.ofNat (v / 2 ^ 16)
  else if x = a + 3 then UInt8.ofNat (v / 2 ^ 24)
  else m x

def writeByte (m : Memory) (a : Nat) (v : UInt8) : Memory := fun x => if x = a then v else m x

/-- Copy of `n` bytes between regions that do not overlap. -/
def copyBytes (m : Memory) (dst src n : Nat) : Memory := fun x =>
  if dst ≤ x ∧ x < dst + n then m (src + (x - dst)) else m x

/-- `n` bytes of value `v`. -/
def fillBytes (m : Memory) (dst : Nat) (v : UInt8) (n : Nat) : Memory := fun x =>
  if dst ≤ x ∧ x < dst + n then v else m x

theorem readWord_writeWord_same (m : Memory) (a v : Nat) :
    readWord (writeWord m a v) a = v % 2 ^ 32 := by
  simp only [readWord, writeWord, if_true, show a + 1 ≠ a by omega, show a + 2 ≠ a by omega,
    show a + 3 ≠ a by omega, show a + 2 ≠ a + 1 by omega, show a + 3 ≠ a + 1 by omega,
    show a + 3 ≠ a + 2 by omega, if_false, UInt8.toNat_ofNat']
  omega

theorem writeWord_of_ne {m : Memory} {a v x : Nat} (h : x < a ∨ a + 4 ≤ x) :
    writeWord m a v x = m x := by
  simp only [writeWord]
  rw [if_neg (by omega), if_neg (by omega), if_neg (by omega), if_neg (by omega)]

/-- A word is determined by its four bytes. -/
theorem readWord_congr {m m' : Memory} {a : Nat}
    (h : ∀ x, a ≤ x → x < a + 4 → m' x = m x) : readWord m' a = readWord m a := by
  simp only [readWord]
  rw [h a (by omega) (by omega), h (a + 1) (by omega) (by omega), h (a + 2) (by omega) (by omega),
    h (a + 3) (by omega) (by omega)]

theorem readWord_writeWord_of_disjoint {m : Memory} {a b v : Nat} (h : b + 4 ≤ a ∨ a + 4 ≤ b) :
    readWord (writeWord m a v) b = readWord m b :=
  readWord_congr fun x hx hx' => writeWord_of_ne (by omega)

/-! ## Frames -/

/-- `m'` differs from `m` at most on addresses `lo ≤ x < hi`. -/
def SameOutside (m m' : Memory) (lo hi : Nat) : Prop := ∀ x, x < lo ∨ hi ≤ x → m' x = m x

theorem SameOutside.refl (m : Memory) (lo hi : Nat) : SameOutside m m lo hi := fun _ _ => rfl

theorem SameOutside.trans {m m' m'' : Memory} {lo hi : Nat} (h : SameOutside m m' lo hi)
    (h' : SameOutside m' m'' lo hi) : SameOutside m m'' lo hi :=
  fun x hx => (h' x hx).trans (h x hx)

theorem SameOutside.mono {m m' : Memory} {lo hi lo' hi' : Nat} (h : SameOutside m m' lo hi)
    (hlo : lo' ≤ lo) (hhi : hi ≤ hi') : SameOutside m m' lo' hi' :=
  fun x hx => h x (by omega)

theorem sameOutside_writeWord (m : Memory) (a v : Nat) :
    SameOutside m (writeWord m a v) a (a + 4) :=
  fun _ hx => writeWord_of_ne hx

theorem sameOutside_writeByte (m : Memory) (a : Nat) (v : UInt8) :
    SameOutside m (writeByte m a v) a (a + 1) := by
  intro x hx
  simp only [writeByte]
  rw [if_neg (by omega)]

theorem sameOutside_copyBytes (m : Memory) (dst src n : Nat) :
    SameOutside m (copyBytes m dst src n) dst (dst + n) := by
  intro x hx
  simp only [copyBytes]
  rw [if_neg (by omega)]

theorem sameOutside_fillBytes (m : Memory) (dst : Nat) (v : UInt8) (n : Nat) :
    SameOutside m (fillBytes m dst v n) dst (dst + n) := by
  intro x hx
  simp only [fillBytes]
  rw [if_neg (by omega)]

theorem SameOutside.readWord_eq {m m' : Memory} {lo hi a : Nat} (h : SameOutside m m' lo hi)
    (ha : a + 4 ≤ lo ∨ hi ≤ a) : readWord m' a = readWord m a :=
  readWord_congr fun x hx hx' => h x (by omega)

end Memory

end CompOrg
