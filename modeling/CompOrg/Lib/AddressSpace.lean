import Mathlib.Data.BitVec

/-! # The memory of a machine whose words are its addresses

An address is a word of `w` bits, so address arithmetic wraps around and an interval is
given by its first address and its length: `x` lies in it when `x - a`, read as a number,
is below the length. A word in memory is `w / 8` bytes in little-endian order.
-/

namespace CompOrg

abbrev AddressSpace (w : Nat) := BitVec w → BitVec 8

namespace AddressSpace

variable {w : Nat}

/-- The number in the `n` bytes from address `a` on. -/
def readNat (m : AddressSpace w) (a : BitVec w) : Nat → Nat
  | 0 => 0
  | n + 1 => (m a).toNat + 256 * readNat m (a + 1) n

def read (m : AddressSpace w) (a : BitVec w) : BitVec w := BitVec.ofNat w (readNat m a (w / 8))

def write (m : AddressSpace w) (a v : BitVec w) : AddressSpace w := fun x =>
  if (x - a).toNat < w / 8 then BitVec.ofNat 8 (v.toNat / 256 ^ (x - a).toNat) else m x

/-- The words at `a` and `b` share no byte. -/
def Apart (a b : BitVec w) : Prop := w / 8 ≤ (a - b).toNat ∧ w / 8 ≤ (b - a).toNat

/-- `m'` differs from `m` at most on the `n` bytes from `a` on. -/
def SameOutside (m m' : AddressSpace w) (a : BitVec w) (n : Nat) : Prop :=
  ∀ x, n ≤ (x - a).toNat → m' x = m x

theorem bytes_lt (w : Nat) : w / 8 < 2 ^ w :=
  Nat.lt_of_le_of_lt (Nat.div_le_self w 8) Nat.lt_two_pow_self

/-- A number is determined by its bytes. -/
theorem readNat_of_bytes {m : AddressSpace w} {a : BitVec w} {n v : Nat}
    (h : ∀ i < n, (m (a + BitVec.ofNat w i)).toNat = v / 256 ^ i % 256) :
    readNat m a n = v % 256 ^ n := by
  induction n generalizing a v with
  | zero => simp [readNat, Nat.mod_one]
  | succ n ih =>
      have hfirst := h 0 (by omega)
      have hrest : readNat m (a + 1) n = v / 256 % 256 ^ n := by
        apply ih
        intro i hi
        have hbyte := h (i + 1) (by omega)
        rw [Nat.pow_succ', ← Nat.div_div_eq_div_mul] at hbyte
        rw [← hbyte]
        congr 2
        rw [BitVec.ofNat_add, BitVec.add_comm (BitVec.ofNat w i), ← BitVec.add_assoc]
        rfl
      simp only [BitVec.add_zero, Nat.pow_zero, Nat.div_one] at hfirst
      rw [readNat, hfirst, hrest, Nat.pow_succ', Nat.mod_mul]

theorem readNat_congr {m m' : AddressSpace w} {a : BitVec w} {n : Nat}
    (h : ∀ i < n, m' (a + BitVec.ofNat w i) = m (a + BitVec.ofNat w i)) :
    readNat m' a n = readNat m a n := by
  induction n generalizing a with
  | zero => rfl
  | succ n ih =>
      have hfirst := h 0 (by omega)
      simp only [BitVec.add_zero] at hfirst
      rw [readNat, readNat, hfirst, ih]
      intro i hi
      have hbyte := h (i + 1) (by omega)
      rwa [BitVec.ofNat_add, BitVec.add_comm (BitVec.ofNat w i), ← BitVec.add_assoc] at hbyte

theorem read_write_same (hw : 8 ∣ w) (m : AddressSpace w) (a v : BitVec w) :
    (m.write a v).read a = v := by
  have hbytes : 256 ^ (w / 8) = 2 ^ w := by
    rw [show 256 = 2 ^ 8 from rfl, ← Nat.pow_mul, Nat.mul_div_cancel' hw]
  have hnat : readNat (m.write a v) a (w / 8) = v.toNat % 256 ^ (w / 8) := by
    apply readNat_of_bytes
    intro i hi
    have hoff : (a + BitVec.ofNat w i - a).toNat = i := by
      rw [BitVec.add_comm, BitVec.add_sub_cancel, BitVec.toNat_ofNat]
      exact Nat.mod_eq_of_lt (Nat.lt_trans hi (bytes_lt w))
    simp only [write, hoff, hi, if_true, BitVec.toNat_ofNat]
  rw [read, hnat, hbytes, Nat.mod_eq_of_lt v.isLt, BitVec.ofNat_toNat, BitVec.setWidth_eq]

theorem read_write_of_apart {m : AddressSpace w} {a b v : BitVec w} (h : Apart a b) :
    (m.write a v).read b = m.read b := by
  rw [read, read, readNat_congr]
  intro i hi
  have hoff : w / 8 ≤ (b + BitVec.ofNat w i - a).toNat := by
    have := bytes_lt w
    obtain ⟨hab, hba⟩ := h
    simp only [BitVec.toNat_sub, BitVec.toNat_add, BitVec.toNat_ofNat] at hab hba ⊢
    have ha := a.isLt
    have hb := b.isLt
    rw [Nat.mod_eq_of_lt (a := i) (by omega)]
    rw [Nat.add_mod_mod, ← Nat.add_assoc]
    rcases Nat.lt_or_ge b.toNat a.toNat with hlt | hge
    · rw [Nat.mod_eq_of_lt (by omega)] at hba
      rw [Nat.mod_eq_sub_mod (by omega), Nat.mod_eq_of_lt (by omega)] at hab
      rw [Nat.mod_eq_of_lt (by omega)]
      omega
    · rw [Nat.mod_eq_sub_mod (by omega), Nat.mod_eq_of_lt (by omega)] at hba
      rcases Nat.eq_or_lt_of_le hge with heq | hgt
      · omega
      · rw [Nat.mod_eq_of_lt (by omega)] at hab
        rw [Nat.mod_eq_sub_mod (by omega), Nat.mod_eq_of_lt (by omega)]
        omega
  simp only [write, Nat.not_lt_of_le hoff, if_false]

theorem sameOutside_refl (m : AddressSpace w) (a : BitVec w) (n : Nat) : SameOutside m m a n :=
  fun _ _ => rfl

theorem SameOutside.write {m m' : AddressSpace w} {a : BitVec w} {n : Nat}
    (h : SameOutside m m' a n) {b : BitVec w} (v : BitVec w)
    (hb : ∀ x, n ≤ (x - a).toNat → w / 8 ≤ (x - b).toNat) :
    SameOutside m (m'.write b v) a n := by
  intro x hx
  have hout : ¬ (x - b).toNat < w / 8 := Nat.not_lt_of_le (hb x hx)
  simp only [AddressSpace.write, hout, if_false]
  exact h x hx

/-- A word outside of the interval is the same in both memories. -/
theorem SameOutside.read_eq {m m' : AddressSpace w} {a b : BitVec w} {n : Nat}
    (h : SameOutside m m' a n) (hb : ∀ i < w / 8, n ≤ (b + BitVec.ofNat w i - a).toNat) :
    m'.read b = m.read b := by
  rw [read, read, readNat_congr]
  intro i hi
  exact h _ (hb i hi)

end AddressSpace

end CompOrg
