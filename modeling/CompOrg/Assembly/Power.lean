import Mathlib.FieldTheory.Finite.Basic
import CompOrg.Lib.X86

/-! # power.s

`power` takes the base and the power from the stack, multiplies in a loop that counts the
power down to 1, and leaves the result in `%rax`. The count wraps around, so a power of 0
runs the loop `2 ^ 64 - 1` times. `main` calls it twice and keeps the first result on the
stack in between, because `power` overwrites `%rbx` and `%rcx`.
-/

namespace CompOrg.Assembly

open X86 AddressSpace

inductive PowerLabel
  | main | power | power_loop_start | end_power | printf
deriving DecidableEq, Repr

section Source

open Reg

abbrev reg (r : Reg) : Operand 64 := .place (.reg r)

/-- `disp(r)` -/
abbrev deref (disp : BitVec 64) (r : Reg) : Place 64 := .mem ⟨disp, some r, none⟩

def mainLines (resultstr fmtstr fmtdec : BitVec 64) : List (Line 64 PowerLabel) :=
  [.label .main,
   .code (.push (.imm 3)),
   .code (.push (.imm 2)),
   .code (.call .power),
   .code (.add (.imm 16) (.reg sp)),
   .code (.push (reg ax)),
   .code (.push (.imm 2)),
   .code (.push (.imm 5)),
   .code (.call .power),
   .code (.add (.imm 16) (.reg sp)),
   .code (.pop (.reg bx)),
   .code (.add (reg ax) (.reg bx)),
   .code (.mov (.imm resultstr) (.reg si)),
   .code (.mov (.imm fmtstr) (.reg di)),
   .code (.mov (.imm 0) (.reg ax)),
   .code (.call .printf),
   .code (.mov (reg bx) (.reg si)),
   .code (.mov (.imm fmtdec) (.reg di)),
   .code (.mov (.imm 0) (.reg ax)),
   .code (.call .printf),
   .code .ret]

def powerLines : List (Line 64 PowerLabel) :=
  [.label .power,
   .code (.push (reg bp)),
   .code (.mov (reg sp) (.reg bp)),
   .code (.sub (.imm 8) (.reg sp)),
   .code (.mov (.place (deref 16 bp)) (.reg bx)),
   .code (.mov (.place (deref 24 bp)) (.reg cx)),
   .code (.mov (reg bx) (deref (-8) bp)),
   .label .power_loop_start,
   .code (.cmp (.imm 1) (reg cx)),
   .code (.jcc .e .end_power),
   .code (.mov (.place (deref (-8) bp)) (.reg ax)),
   .code (.imul (reg bx) (.reg ax)),
   .code (.mov (reg ax) (deref (-8) bp)),
   .code (.dec (.reg cx)),
   .code (.jmp .power_loop_start),
   .label .end_power,
   .code (.mov (.place (deref (-8) bp)) (.reg ax)),
   .code (.mov (reg bp) (.reg sp)),
   .code (.pop (.reg bp)),
   .code .ret]

end Source

/-- The number of factors that the loop multiplies for a power `n`. -/
def factors (n : BitVec 64) : Nat := (n - 1).toNat + 1

/-- What `power` computes: the power modulo `2 ^ 64`, and for a power of 0, which its
header rules out, the lowest bit of the base. -/
def powerValue (base n : BitVec 64) : BitVec 64 :=
  if n = 0 then base &&& 1 else BitVec.ofNat 64 (base.toNat ^ n.toNat)

/-- At the loop head, with `k` rounds to go. -/
structure PowerLoop (s₀ : State 64) (base n head : BitVec 64) (k : Nat) (s : State 64) :
    Prop where
  pc : s.pc = head
  factor : s.regs .bx = base
  count : s.regs .cx = BitVec.ofNat 64 (k + 1)
  bound : k < factors n
  frame : s.regs .bp = s₀.regs .sp - 8#64
  result : s.mem.read (s₀.regs .sp - 16#64) = BitVec.ofNat 64 (base.toNat ^ (factors n - k))
  saved : s.mem.read (s₀.regs .sp - 8#64) = s₀.regs .bp
  kept : ∀ r, r ≠ .ax → r ≠ .bx → r ≠ .cx → r ≠ .bp → r ≠ .sp → s.regs r = s₀.regs r
  outside : SameOutside s₀.mem s.mem (s₀.regs .sp - 16#64) 16

/-- What a caller of `power` gets back. -/
structure PowerReturn (s₀ : State 64) (base n : BitVec 64) (t : State 64) : Prop where
  pc : t.pc = s₀.top
  result : t.regs .ax = powerValue base n
  stack : t.regs .sp = s₀.regs .sp + 8#64
  kept : ∀ r, r ≠ .ax → r ≠ .bx → r ≠ .cx → r ≠ .sp → t.regs r = s₀.regs r
  outside : SameOutside s₀.mem t.mem (s₀.regs .sp - 16#64) 16

/-! ## The value -/

theorem factors_zero : factors 0 = 2 ^ 64 := by decide

theorem factors_of_ne_zero {n : BitVec 64} (h : n ≠ 0) : factors n = n.toNat := by
  have hpos : n.toNat ≠ 0 := fun hz => h (BitVec.toNat_inj.mp hz)
  rw [factors]
  bv_omega

/-- Raising to the power `2 ^ k` leaves only the parity modulo `2 ^ k`. -/
theorem pow_two_pow_mod (b k : Nat) (hk : 0 < k) : b ^ 2 ^ k % 2 ^ k = b % 2 := by
  rcases Nat.even_or_odd b with heven | hodd
  · obtain ⟨c, rfl⟩ := heven.two_dvd
    have hdvd : 2 ^ k ∣ (2 * c) ^ 2 ^ k := by
      rw [Nat.mul_pow]
      exact (Nat.pow_dvd_pow 2 Nat.lt_two_pow_self.le).mul_right _
    rw [Nat.mod_eq_zero_of_dvd hdvd, Nat.mul_mod_right]
  · obtain ⟨j, rfl⟩ := Nat.exists_eq_succ_of_ne_zero (Nat.ne_of_gt hk)
    have hcoprime : Nat.Coprime b (2 ^ (j + 1)) :=
      (Nat.coprime_two_right.mpr hodd).pow_right (j + 1)
    have htotient : Nat.totient (2 ^ (j + 1)) = 2 ^ j := by
      rw [Nat.totient_prime_pow_succ Nat.prime_two, Nat.mul_one]
    have hone : b ^ 2 ^ (j + 1) ≡ 1 [MOD 2 ^ (j + 1)] := by
      have hpow := (Nat.ModEq.pow_totient hcoprime).pow 2
      rwa [htotient, ← Nat.pow_mul, ← Nat.pow_succ, Nat.one_pow] at hpow
    have hlt : 1 < 2 ^ (j + 1) := Nat.one_lt_two_pow (Nat.succ_ne_zero j)
    rw [Nat.succ_eq_add_one, hone, Nat.mod_eq_of_lt hlt, Nat.odd_iff.mp hodd]

theorem ofNat_pow_factors (base n : BitVec 64) :
    BitVec.ofNat 64 (base.toNat ^ factors n) = powerValue base n := by
  rw [powerValue]
  split
  case isTrue h =>
    apply BitVec.eq_of_toNat_eq
    rw [h, factors_zero, BitVec.toNat_ofNat, pow_two_pow_mod _ _ (by decide), BitVec.toNat_and]
    exact (Nat.and_one_is_mod _).symm
  case isFalse h => rw [factors_of_ne_zero h]

section Power

variable {text : Text 64} {sym : PowerLabel → BitVec 64} {a : BitVec 64}

theorem factors_le (n : BitVec 64) : factors n ≤ 2 ^ 64 := by
  have := (n - 1).isLt
  rw [factors]
  omega

theorem ofNat_factors (n : BitVec 64) : BitVec.ofNat 64 (factors n) = n := by
  rw [factors, BitVec.ofNat_add, BitVec.ofNat_toNat, BitVec.setWidth_eq]
  exact BitVec.sub_add_cancel n 1

/-- The two words that `power` writes below its return address stay apart from each other
and from what its caller pushed. -/
theorem apart_below (sp : BitVec 64) :
    Apart (sp - 16#64) (sp - 8#64) ∧ Apart (sp - 8#64) (sp + 8#64) ∧
      Apart (sp - 8#64) (sp + 16#64) := by
  refine ⟨⟨?_, ?_⟩, ⟨?_, ?_⟩, ⟨?_, ?_⟩⟩ <;> bv_omega

/-- Both words lie in the 16 bytes below the return address. -/
theorem outside_below {sp x : BitVec 64} (h : 16 ≤ (x - (sp - 16#64)).toNat) :
    8 ≤ (x - (sp - 8#64)).toNat ∧ 8 ≤ (x - (sp - 16#64)).toNat := by
  constructor <;> bv_omega

theorem power_entry (hp : Placed text sym a powerLines) {s₀ : State 64}
    (hpc : s₀.pc = sym .power) {base n : BitVec 64}
    (hbase : s₀.mem.read (s₀.regs .sp + 8#64) = base)
    (hn : s₀.mem.read (s₀.regs .sp + 16#64) = n) :
    Eventually text (PowerLoop s₀ base n (sym .power_loop_start) (n - 1).toNat) s₀ := by
  simp only [powerLines, Placed, Instr.map] at hp
  obtain ⟨hstart, a₁, h₀, a₂, h₁, a₃, h₂, a₄, h₃, a₅, h₄, a₆, h₅, hloop, -⟩ := hp
  obtain ⟨hlocal, hfirst, hsecond⟩ := apart_below (s₀.regs .sp)
  have haddr₁ : 16#64 + (s₀.regs .sp - 8#64) = s₀.regs .sp + 8#64 := by bv_omega
  have haddr₂ : 24#64 + (s₀.regs .sp - 8#64) = s₀.regs .sp + 16#64 := by bv_omega
  have haddr₃ : -8#64 + (s₀.regs .sp - 8#64) = s₀.regs .sp - 16#64 := by bv_omega
  have hcount : BitVec.ofNat 64 ((n - 1).toNat + 1) = n := ofNat_factors n
  have hone : factors n - (n - 1).toNat = 1 := by
    rw [factors]
    omega
  apply Eventually.step (hpc.trans hstart) h₀ rfl
  apply Eventually.step rfl h₁ rfl
  apply Eventually.step rfl h₂ rfl
  apply Eventually.step rfl h₃ rfl
  apply Eventually.step rfl h₄ rfl
  apply Eventually.step rfl h₅ rfl
  apply Eventually.done
  constructor
  case pc => exact hloop.symm
  case factor => simp [haddr₁, read_write_of_apart hfirst, hbase]
  case count => simpa [haddr₂, read_write_of_apart hsecond, hn] using hcount.symm
  case bound =>
    rw [factors]
    omega
  case frame => simp
  case result =>
    rw [hone]
    simp [-BitVec.reduceNeg, haddr₁, haddr₃, read_write_of_apart hfirst, hbase, read_write_same]
  case saved => simp [-BitVec.reduceNeg, haddr₃, read_write_of_apart hlocal, read_write_same]
  case kept =>
    intro r hax hbx hcx hbp hsp
    simp [hbx, hcx, hbp, hsp]
  case outside =>
    simp [-BitVec.reduceNeg, haddr₃]
    refine ((sameOutside_refl _ _ _).write _ ?_).write _ ?_
    · exact fun x hx => (outside_below hx).1
    · exact fun x hx => (outside_below hx).2

theorem power_round (hp : Placed text sym a powerLines) {s₀ : State 64} {base n : BitVec 64}
    (k : Nat) (s : State 64) (hs : PowerLoop s₀ base n (sym .power_loop_start) (k + 1) s) :
    Eventually text (PowerLoop s₀ base n (sym .power_loop_start) k) s := by
  obtain ⟨l, hbody⟩ := hp.drop 7
  simp only [powerLines, List.drop, Placed, Instr.map] at hbody
  obtain ⟨hloop, a₇, h₆, a₈, h₇, a₉, h₈, a₁₀, h₉, a₁₁, h₁₀, a₁₂, h₁₁, a₁₃, h₁₂, -⟩ := hbody
  obtain ⟨hlocal, -, -⟩ := apart_below (s₀.regs .sp)
  have haddr : -8#64 + s.regs .bp = s₀.regs .sp - 16#64 := by
    rw [hs.frame]
    bv_omega
  have hbound := hs.bound
  have hle := factors_le n
  have hmore : ¬ s.regs .cx = 1#64 := by
    rw [hs.count]
    bv_omega
  have hproduct : BitVec.ofNat 64 (base.toNat ^ (factors n - (k + 1))) * base =
      BitVec.ofNat 64 (base.toNat ^ (factors n - k)) := by
    rw [show factors n - k = factors n - (k + 1) + 1 by omega, Nat.pow_succ, BitVec.ofNat_mul,
      BitVec.ofNat_toNat, BitVec.setWidth_eq]
  apply Eventually.step (hs.pc.trans hloop) h₆ rfl
  apply Eventually.jump rfl h₇ rfl (holds_e _ _)
  · exact fun hdone => absurd hdone hmore
  intro _
  apply Eventually.step rfl h₈ rfl
  apply Eventually.step rfl h₉ rfl
  apply Eventually.step rfl h₁₀ rfl
  apply Eventually.step rfl h₁₁ rfl
  apply Eventually.step rfl h₁₂ rfl
  apply Eventually.done
  constructor
  case pc => rfl
  case factor => simp [hs.factor]
  case count =>
    simp [hs.count]
    bv_omega
  case bound => omega
  case frame => simpa using hs.frame
  case result =>
    rw [← hproduct, ← hs.result, ← hs.factor]
    simp [-BitVec.reduceNeg, haddr, read_write_same]
  case saved =>
    simp [-BitVec.reduceNeg, haddr, read_write_of_apart hlocal, hs.saved]
  case kept =>
    intro r hax hbx hcx hbp hsp
    simp [hax, hcx, hs.kept r hax hbx hcx hbp hsp]
  case outside =>
    simp [-BitVec.reduceNeg, haddr]
    exact hs.outside.write _ fun x hx => (outside_below hx).2

theorem power_exit (hp : Placed text sym a powerLines) {s₀ : State 64} {base n : BitVec 64}
    (s : State 64) (hs : PowerLoop s₀ base n (sym .power_loop_start) 0 s) :
    Eventually text (PowerReturn s₀ base n) s := by
  obtain ⟨l, hhead⟩ := hp.drop 7
  obtain ⟨e, htail⟩ := hp.drop 15
  simp only [powerLines, List.drop, Placed, Instr.map] at hhead htail
  obtain ⟨hloop, a₇, h₆, a₈, h₇, -⟩ := hhead
  obtain ⟨hend, a₁₄, h₁₃, a₁₅, h₁₄, a₁₆, h₁₅, a₁₇, h₁₆, -⟩ := htail
  have haddr : -8#64 + s.regs .bp = s₀.regs .sp - 16#64 := by
    rw [hs.frame]
    bv_omega
  have hstack : s₀.regs .sp - 8#64 + 8#64 = s₀.regs .sp := BitVec.sub_add_cancel _ _
  have htop : s.mem.read (s₀.regs .sp) = s₀.top := by
    apply hs.outside.read_eq
    intro i hi
    bv_omega
  apply Eventually.step (hs.pc.trans hloop) h₆ rfl
  apply Eventually.jump rfl h₇ rfl (holds_e _ _)
  rotate_left
  · exact fun hmore => absurd hs.count hmore
  intro _
  apply Eventually.step hend h₁₃ rfl
  apply Eventually.step rfl h₁₄ rfl
  apply Eventually.step rfl h₁₅ rfl
  apply Eventually.step rfl h₁₆ rfl
  apply Eventually.done
  constructor
  case pc => simp [State.top, hs.frame, hstack, htop]
  case result =>
    rw [← ofNat_pow_factors]
    simpa [-BitVec.reduceNeg, haddr] using hs.result
  case stack => simp [hs.frame, hstack]
  case kept =>
    intro r hax hbx hcx hsp
    by_cases hbp : r = .bp
    · subst hbp
      simp [State.top, hs.frame, hs.saved]
    · simp [hax, hbp, hsp, hs.kept r hax hbx hcx hbp hsp]
  case outside => simpa using hs.outside

/-- Called anywhere, from any state, `power` returns to its caller with the value in `%rax`,
its arguments still on the stack and nothing written above its stack pointer. -/
theorem power_returns (hp : Placed text sym a powerLines) {s₀ : State 64}
    (hpc : s₀.pc = sym .power) :
    Eventually text (PowerReturn s₀ (s₀.mem.read (s₀.regs .sp + 8#64))
      (s₀.mem.read (s₀.regs .sp + 16#64))) s₀ :=
  (power_entry hp hpc rfl rfl).trans fun _ hs =>
    eventually_countdown (power_round hp) (power_exit hp) hs

theorem power_correct (hp : Placed text sym a powerLines) {s : State 64}
    (hpc : s.pc = sym .power) :
    let base := s.mem.read (s.regs .sp + 8#64)
    let n := s.mem.read (s.regs .sp + 16#64)
    Eventually text (fun t => t.pc = s.top ∧ t.regs .sp = s.regs .sp + 8#64 ∧
      t.regs .ax = (if n = 0 then base &&& 1 else BitVec.ofNat 64 (base.toNat ^ n.toNat)) ∧
      (∀ r, r ≠ .ax → r ≠ .bx → r ≠ .cx → r ≠ .sp → t.regs r = s.regs r) ∧
      SameOutside s.mem t.mem (s.regs .sp - 16#64) 16) s := by
  intro base n
  obtain ⟨t, hrun, ht⟩ := power_returns hp hpc
  exact ⟨t, hrun, ht.pc, ht.stack, ht.result, ht.kept, ht.outside⟩

/-- A call with the arguments on the stack comes back behind the call with the stack as it
was. -/
theorem call_power (base n : BitVec 64) (hp : Placed text sym a powerLines) {s : State 64}
    {b next : BitVec 64} (hpc : s.pc = b) (hi : text b = some (.call (sym .power), next))
    (hbase : s.mem.read (s.regs .sp) = base) (hn : s.mem.read (s.regs .sp + 8#64) = n) :
    Eventually text (fun t => t.pc = next ∧ t.regs .ax = powerValue base n ∧
      t.regs .sp = s.regs .sp ∧ SameOutside s.mem t.mem (s.regs .sp - 24#64) 24) s := by
  have haddr : s.regs .sp - 8#64 + 16#64 = s.regs .sp + 8#64 := by bv_omega
  have hstack : s.regs .sp - 8#64 + 8#64 = s.regs .sp := BitVec.sub_add_cancel _ _
  have hfirst : Apart (s.regs .sp - 8#64) (s.regs .sp) := by constructor <;> bv_omega
  have hsecond : Apart (s.regs .sp - 8#64) (s.regs .sp + 8#64) := by constructor <;> bv_omega
  apply Eventually.step hpc hi rfl
  apply (power_returns hp rfl).trans
  intro t ht
  apply Eventually.done
  refine ⟨?_, ?_, ?_, ?_⟩
  · rw [ht.pc]
    simp [State.top, read_write_same]
  · rw [ht.result]
    simp [read_write_of_apart hfirst, read_write_of_apart hsecond, hstack, haddr, hbase, hn]
  · rw [ht.stack]
    simp [hstack]
  · have hout := ht.outside
    simp at hout
    intro x hx
    have hpushed : s.mem.write (s.regs .sp - 8#64) next x = s.mem x :=
      (sameOutside_refl s.mem _ 24).write next (by intro y hy; bv_omega) x hx
    rw [hout x (by bv_omega), hpushed]

/-- Two words pushed one after the other, as a callee finds its arguments. -/
theorem read_pushed (m : AddressSpace 64) (sp x y : BitVec 64) :
    ((m.write (sp - 8#64) y).write (sp - 8#64 - 8#64) x).read (sp - 8#64 - 8#64) = x ∧
      ((m.write (sp - 8#64) y).write (sp - 8#64 - 8#64) x).read (sp - 8#64 - 8#64 + 8#64) = y := by
  have happart : Apart (sp - 8#64 - 8#64) (sp - 8#64) := by constructor <;> bv_omega
  have hstack : sp - 8#64 - 8#64 + 8#64 = sp - 8#64 := BitVec.sub_add_cancel _ _
  rw [hstack, read_write_of_apart happart]
  exact ⟨read_write_same (by decide) _ _ _, read_write_same (by decide) _ _ _⟩

/-- From any state and stack, `main` reaches its first `printf` with the sum of the two
powers in `%rbx`: the second call overwrites the register, not the first result, which
waits on the stack. -/
theorem main_adds {resultstr fmtstr fmtdec : BitVec 64} {b : BitVec 64}
    (hm : Placed text sym b (mainLines resultstr fmtstr fmtdec))
    (hp : Placed text sym a powerLines) {s : State 64} (hpc : s.pc = sym .main) :
    Eventually text (fun t => t.pc = sym .printf ∧ t.regs .bx = 33 ∧ t.regs .si = resultstr ∧
      t.regs .di = fmtstr) s := by
  simp only [mainLines, Placed, Instr.map] at hm
  obtain ⟨hmain, b₁, h₀, b₂, h₁, b₃, h₂, b₄, h₃, b₅, h₄, b₆, h₅, b₇, h₆, b₈, h₇, b₉, h₈, b₁₀,
    h₉, b₁₁, h₁₀, b₁₂, h₁₁, b₁₃, h₁₂, b₁₄, h₁₃, b₁₅, h₁₄, -⟩ := hm
  have hargs := read_pushed s.mem (s.regs .sp) 2 3
  apply Eventually.step (hpc.trans hmain) h₀ rfl
  apply Eventually.step rfl h₁ rfl
  apply (call_power 2 3 hp rfl h₂ ?_ ?_).trans
  · rintro t ⟨htpc, htax, htsp, -⟩
    have hargs' := read_pushed (t.mem.write (t.regs .sp + 16 - 8#64) (t.regs .ax))
      (t.regs .sp + 16 - 8#64) 5 2
    apply Eventually.step htpc h₃ rfl
    apply Eventually.step rfl h₄ rfl
    apply Eventually.step rfl h₅ rfl
    apply Eventually.step rfl h₆ rfl
    apply (call_power 5 2 hp rfl h₇ ?_ ?_).trans
    · rintro u ⟨hupc, huax, husp, huout⟩
      apply Eventually.step hupc h₈ rfl
      apply Eventually.step rfl h₉ rfl
      apply Eventually.step rfl h₁₀ rfl
      apply Eventually.step rfl h₁₁ rfl
      apply Eventually.step rfl h₁₂ rfl
      apply Eventually.step rfl h₁₃ rfl
      apply Eventually.step rfl h₁₄ rfl
      apply Eventually.done
      simp at husp huout
      have haddr : t.regs .sp + 16#64 - 8#64 - 8#64 - 8#64 + 16#64 =
          t.regs .sp + 16#64 - 8#64 := by bv_omega
      have hsaved : u.mem.read (t.regs .sp + 16#64 - 8#64) = t.regs .ax := by
        rw [huout.read_eq (by intro i hi; bv_omega), read_write_of_apart ?_,
          read_write_of_apart ?_, read_write_same (by decide)]
        · constructor <;> bv_omega
        · constructor <;> bv_omega
      simp [husp, huax, State.top, haddr, hsaved, htax]
      decide
    · simpa using hargs'.1
    · simpa using hargs'.2
  · simpa using hargs.1
  · simpa using hargs.2

end Power

/-- `power` alone from address 0 on. -/
def sampleSymbols : PowerLabel → BitVec 64
  | .power => 0
  | .power_loop_start => 6
  | .end_power => 13
  | .main | .printf => 100

def sampleText : Text 64 := flat sampleSymbols powerLines

theorem sampleText_placed : Placed sampleText sampleSymbols 0 powerLines :=
  ⟨rfl, _, rfl, _, rfl, _, rfl, _, rfl, _, rfl, _, rfl, rfl, _, rfl, _, rfl, _, rfl, _, rfl,
    _, rfl, _, rfl, _, rfl, rfl, _, rfl, _, rfl, _, rfl, _, rfl, trivial⟩

/-- The call `power(2, 3)`, with 50 as the return address. -/
def sampleCall : State 64 where
  pc := 0
  regs := fun _ => 0
  mem := fun x => if x = 0 then 50 else if x = 8 then 2 else if x = 16 then 3 else 0
  flags := none

theorem sampleCall_returns :
    sampleCall.pc = sampleSymbols .power ∧
      Eventually sampleText (fun t => t.pc = 50 ∧ t.regs .ax = 8) sampleCall := by
  refine ⟨rfl, ?_⟩
  obtain ⟨t, hrun, hpc, -, hax, -⟩ := power_correct sampleText_placed (s := sampleCall) rfl
  exact ⟨t, hrun, hpc.trans (by decide), hax.trans (by decide)⟩


end CompOrg.Assembly
