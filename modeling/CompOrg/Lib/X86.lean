import Mathlib.Logic.Relation
import Mathlib.Logic.Function.Basic
import CompOrg.Lib.AddressSpace

/-! # A fragment of the x86 instruction set

The machine has words of `w` bits, so that one definition serves the 32-bit and the 64-bit
instructions. A program is a list of source lines with labels; `Placed` says that the lines
have been assembled from some address on, at whatever instruction lengths, with each label
standing for its address. What is proved of placed lines holds wherever the linker puts them.
`Eventually` is the total-correctness statement: the run from a state passes through one
that satisfies the postcondition.
-/

namespace CompOrg.X86

open AddressSpace

variable {w : Nat}

/-- The general registers the fragment names. At 32 bits `ax` is `%eax`, at 64 bits `%rax`. -/
inductive Reg
  | ax | bx | cx | dx | si | di | bp | sp
deriving DecidableEq, Repr

/-- `disp(base, index, scale)`. -/
structure Address (w : Nat) where
  disp : BitVec w
  base : Option Reg
  index : Option (Reg × BitVec w)

inductive Place (w : Nat)
  | reg (r : Reg)
  | mem (a : Address w)

inductive Operand (w : Nat)
  | imm (v : BitVec w)
  | place (p : Place w)

inductive Cond
  | e | ge | le
deriving DecidableEq, Repr

/-- Source before destination, as the assembler writes them. -/
inductive Instr (w : Nat) (L : Type)
  | mov (src : Operand w) (dst : Place w)
  | add (src : Operand w) (dst : Place w)
  | sub (src : Operand w) (dst : Place w)
  | imul (src : Operand w) (dst : Place w)
  | inc (dst : Place w)
  | dec (dst : Place w)
  | cmp (src : Operand w) (dst : Operand w)
  | push (src : Operand w)
  | pop (dst : Place w)
  | jmp (target : L)
  | jcc (c : Cond) (target : L)
  | call (target : L)
  | ret
  | int (vector : Nat)

structure Flags where
  zero : Bool
  sign : Bool
  overflow : Bool
deriving DecidableEq, Repr

structure State (w : Nat) where
  pc : BitVec w
  regs : Reg → BitVec w
  mem : AddressSpace w
  /-- `none` after an instruction that leaves the flags undefined. -/
  flags : Option Flags

/-! ## Flags -/

def addFlags (a b : BitVec w) : Flags where
  zero := a + b == 0
  sign := (a + b).msb
  overflow := a.saddOverflow b

def subFlags (a b : BitVec w) : Flags where
  zero := a - b == 0
  sign := (a - b).msb
  overflow := a.ssubOverflow b

def Cond.holds : Cond → Flags → Bool
  | .e, f => f.zero
  | .ge, f => f.sign == f.overflow
  | .le, f => f.zero || f.sign != f.overflow

theorem holds_e (a b : BitVec w) : Cond.e.holds (subFlags a b) = true ↔ a = b := by
  simp only [Cond.holds, subFlags, beq_iff_eq, BitVec.ofNat_eq_ofNat]
  exact BitVec.sub_eq_iff_eq_add.trans (by rw [BitVec.zero_add])

/-- Sign and overflow together give the sign of the difference of the numbers. -/
theorem sign_eq_overflow_iff (a b : BitVec w) :
    (a - b).msb = a.ssubOverflow b ↔ b.toInt ≤ a.toInt := by
  rw [BitVec.msb_eq_toInt]
  cases hover : a.ssubOverflow b with
  | false =>
      rw [BitVec.toInt_sub_of_not_ssubOverflow (by simp [hover]), decide_eq_false_iff_not]
      omega
  | true =>
      -- the difference leaves the signed range on one side and wraps around to the other
      rw [decide_eq_true_iff, BitVec.toInt_sub]
      simp only [BitVec.ssubOverflow, Bool.or_eq_true, decide_eq_true_eq, ge_iff_le] at hover
      have halo : -2 ^ w ≤ 2 * a.toInt := BitVec.le_two_mul_toInt
      have hahi : 2 * a.toInt < 2 ^ w := BitVec.two_mul_toInt_lt
      have hblo : -2 ^ w ≤ 2 * b.toInt := BitVec.le_two_mul_toInt
      have hbhi : 2 * b.toInt < 2 ^ w := BitVec.two_mul_toInt_lt
      cases w with
      | zero => omega
      | succ w =>
          rw [Nat.add_sub_cancel] at hover
          rw [Int.pow_succ] at halo hahi hblo hbhi
          have hcast : ((2 ^ (w + 1) : Nat) : Int) = 2 ^ w * 2 := by
            rw [Nat.pow_succ]
            push_cast
            rfl
          rcases hover with hhigh | hlow
          · rw [← Int.sub_bmod_right, Int.bmod_eq_of_le_mul_two (by omega) (by omega)]
            omega
          · rw [← Int.add_bmod_right, Int.bmod_eq_of_le_mul_two (by omega) (by omega)]
            omega

theorem holds_ge (a b : BitVec w) :
    Cond.ge.holds (subFlags a b) = true ↔ b.toInt ≤ a.toInt := by
  simp only [Cond.holds, subFlags, beq_iff_eq]
  exact sign_eq_overflow_iff a b

theorem holds_le (a b : BitVec w) :
    Cond.le.holds (subFlags a b) = true ↔ a.toInt ≤ b.toInt := by
  have hzero := holds_e a b
  have hge := sign_eq_overflow_iff a b
  simp only [Cond.holds, subFlags] at hzero ⊢
  rw [Bool.or_eq_true, hzero, bne_iff_ne, ne_eq, hge, ← BitVec.toInt_inj]
  omega

/-! ## Execution -/

def Address.eval (regs : Reg → BitVec w) (a : Address w) : BitVec w :=
  a.disp + (a.base.map regs).getD 0 + (a.index.map fun i => regs i.1 * i.2).getD 0

@[simp] theorem Address.eval_base (regs : Reg → BitVec w) (d : BitVec w) (r : Reg) :
    Address.eval regs ⟨d, some r, none⟩ = d + regs r := by
  simp [Address.eval]

@[simp] theorem Address.eval_index (regs : Reg → BitVec w) (d k : BitVec w) (r : Reg) :
    Address.eval regs ⟨d, none, some (r, k)⟩ = d + regs r * k := by
  simp [Address.eval]

namespace State

def get (s : State w) : Place w → BitVec w
  | .reg r => s.regs r
  | .mem a => s.mem.read (a.eval s.regs)

def value (s : State w) : Operand w → BitVec w
  | .imm v => v
  | .place p => s.get p

def set (s : State w) (p : Place w) (v : BitVec w) : State w :=
  match p with
  | .reg r => { s with regs := Function.update s.regs r v }
  | .mem a => { s with mem := s.mem.write (a.eval s.regs) v }

def goto (s : State w) (target : BitVec w) : State w := { s with pc := target }

def withFlags (s : State w) (f : Option Flags) : State w := { s with flags := f }

def pushWord (s : State w) (v : BitVec w) : State w :=
  let sp := s.regs .sp - BitVec.ofNat w (w / 8)
  { s with regs := Function.update s.regs .sp sp, mem := s.mem.write sp v }

def popWord (s : State w) : State w :=
  { s with regs := Function.update s.regs .sp (s.regs .sp + BitVec.ofNat w (w / 8)) }

/-- The word on top of the stack. -/
def top (s : State w) : BitVec w := s.mem.read (s.regs .sp)

section Fields

variable (s : State w) (r : Reg) (a : Address w) (v : BitVec w) (f : Option Flags)

@[simp] theorem get_reg : s.get (.reg r) = s.regs r := rfl

@[simp] theorem get_mem : s.get (.mem a) = s.mem.read (a.eval s.regs) := rfl

@[simp] theorem value_imm : s.value (.imm v) = v := rfl

@[simp] theorem value_place (p : Place w) : s.value (.place p) = s.get p := rfl

@[simp] theorem set_reg_regs : (s.set (.reg r) v).regs = Function.update s.regs r v := rfl

@[simp] theorem set_reg_mem : (s.set (.reg r) v).mem = s.mem := rfl

@[simp] theorem set_mem_regs : (s.set (.mem a) v).regs = s.regs := rfl

@[simp] theorem set_mem_mem : (s.set (.mem a) v).mem = s.mem.write (a.eval s.regs) v := rfl

@[simp] theorem goto_pc : (s.goto v).pc = v := rfl

@[simp] theorem goto_regs : (s.goto v).regs = s.regs := rfl

@[simp] theorem goto_mem : (s.goto v).mem = s.mem := rfl

@[simp] theorem withFlags_regs : (s.withFlags f).regs = s.regs := rfl

@[simp] theorem withFlags_mem : (s.withFlags f).mem = s.mem := rfl

@[simp] theorem pushWord_regs :
    (s.pushWord v).regs = Function.update s.regs .sp (s.regs .sp - BitVec.ofNat w (w / 8)) := rfl

@[simp] theorem pushWord_mem :
    (s.pushWord v).mem = s.mem.write (s.regs .sp - BitVec.ofNat w (w / 8)) v := rfl

@[simp] theorem popWord_regs :
    s.popWord.regs = Function.update s.regs .sp (s.regs .sp + BitVec.ofNat w (w / 8)) := rfl

@[simp] theorem popWord_mem : s.popWord.mem = s.mem := rfl

end Fields

end State

/-- Execute one instruction whose successor in memory is at `next`. A conditional jump needs
defined flags, and an interrupt leaves the program. -/
def Instr.exec (i : Instr w (BitVec w)) (next : BitVec w) (s : State w) : Option (State w) :=
  match i with
  | .mov src dst => some ((s.set dst (s.value src)).goto next)
  | .add src dst =>
      let a := s.get dst
      let b := s.value src
      some (((s.set dst (a + b)).withFlags (some (addFlags a b))).goto next)
  | .sub src dst =>
      let a := s.get dst
      let b := s.value src
      some (((s.set dst (a - b)).withFlags (some (subFlags a b))).goto next)
  | .imul src dst =>
      some (((s.set dst (s.get dst * s.value src)).withFlags none).goto next)
  | .inc dst =>
      let a := s.get dst
      some (((s.set dst (a + 1)).withFlags (some (addFlags a 1))).goto next)
  | .dec dst =>
      let a := s.get dst
      some (((s.set dst (a - 1)).withFlags (some (subFlags a 1))).goto next)
  | .cmp src dst =>
      some ((s.withFlags (some (subFlags (s.value dst) (s.value src)))).goto next)
  | .push src => some ((s.pushWord (s.value src)).goto next)
  | .pop dst => some ((s.popWord.set dst s.top).goto next)
  | .jmp target => some (s.goto target)
  | .jcc c target => s.flags.map fun f => s.goto (if c.holds f then target else next)
  | .call target => some ((s.pushWord next).goto target)
  | .ret => some (s.popWord.goto s.top)
  | .int _ => none

/-- The instruction at an address and the address of the one after it. -/
abbrev Text (w : Nat) := BitVec w → Option (Instr w (BitVec w) × BitVec w)

def step (text : Text w) (s : State w) : Option (State w) :=
  (text s.pc).bind fun i => i.1.exec i.2 s

/-! ## Programs -/

def Instr.map {L M : Type} (f : L → M) : Instr w L → Instr w M
  | .mov src dst => .mov src dst
  | .add src dst => .add src dst
  | .sub src dst => .sub src dst
  | .imul src dst => .imul src dst
  | .inc dst => .inc dst
  | .dec dst => .dec dst
  | .cmp src dst => .cmp src dst
  | .push src => .push src
  | .pop dst => .pop dst
  | .jmp target => .jmp (f target)
  | .jcc c target => .jcc c (f target)
  | .call target => .call (f target)
  | .ret => .ret
  | .int vector => .int vector

inductive Line (w : Nat) (L : Type)
  | label (l : L)
  | code (i : Instr w L)

def Line.instr {L : Type} : Line w L → Option (Instr w L)
  | .label _ => none
  | .code i => some i

/-- Lines put from address 0 on, with one address for each instruction. -/
def flat {L : Type} (sym : L → BitVec w) (lines : List (Line w L)) : Text w := fun x =>
  ((lines.filterMap Line.instr)[x.toNat]?).map fun i => (i.map sym, x + 1)

/-- The lines are in memory from `a` on, and the labels stand for their addresses. -/
def Placed {L : Type} (text : Text w) (sym : L → BitVec w) : BitVec w → List (Line w L) → Prop
  | _, [] => True
  | a, .label l :: lines => sym l = a ∧ Placed text sym a lines
  | a, .code i :: lines => ∃ next, text a = some (i.map sym, next) ∧ Placed text sym next lines

theorem Placed.drop {L : Type} {text : Text w} {sym : L → BitVec w} {a : BitVec w}
    {lines : List (Line w L)} (h : Placed text sym a lines) (n : Nat) :
    ∃ b, Placed text sym b (lines.drop n) := by
  induction n generalizing a lines with
  | zero => exact ⟨a, h⟩
  | succ n ih =>
      match lines, h with
      | [], _ => exact ⟨a, trivial⟩
      | .label _ :: _, h => exact ih h.2
      | .code _ :: _, ⟨_, _, h⟩ => exact ih h

/-! ## Runs -/

def Reaches (text : Text w) : State w → State w → Prop :=
  Relation.ReflTransGen fun s t => step text s = some t

def Eventually (text : Text w) (P : State w → Prop) (s : State w) : Prop :=
  ∃ t, Reaches text s t ∧ P t

section Runs

variable {text : Text w} {P Q : State w → Prop} {s : State w}

theorem Eventually.done (h : P s) : Eventually text P s := ⟨s, .refl, h⟩

theorem Eventually.step {a next : BitVec w} {i : Instr w (BitVec w)} {t : State w}
    (hpc : s.pc = a) (hi : text a = some (i, next)) (he : i.exec next s = some t)
    (h : Eventually text P t) : Eventually text P s := by
  obtain ⟨u, hu, hp⟩ := h
  have hst : X86.step text s = some t := by
    rw [X86.step, hpc, hi]
    exact he
  exact ⟨u, hu.head hst, hp⟩

theorem Eventually.trans (h : Eventually text Q s) (hQ : ∀ t, Q t → Eventually text P t) :
    Eventually text P s := by
  obtain ⟨t, ht, hq⟩ := h
  obtain ⟨u, hu, hp⟩ := hQ t hq
  exact ⟨u, ht.trans hu, hp⟩

/-- A conditional jump after a comparison goes on in the state of the side that was taken. -/
theorem Eventually.jump {a next target : BitVec w} {c : Cond} {f : Flags} {taken : Prop}
    (hpc : s.pc = a) (hi : text a = some (.jcc c target, next)) (hf : s.flags = some f)
    (hc : c.holds f = true ↔ taken) (hyes : taken → Eventually text P (s.goto target))
    (hno : ¬ taken → Eventually text P (s.goto next)) : Eventually text P s := by
  by_cases h : taken
  · refine .step hpc hi ?_ (hyes h)
    simp [Instr.exec, hf, hc.mpr h]
  · refine .step hpc hi ?_ (hno h)
    simp [Instr.exec, hf, mt hc.mp h]

/-- A loop whose rounds lower a counter reaches the state in which the counter is zero. -/
theorem eventually_countdown {Inv : Nat → State w → Prop}
    (hround : ∀ n s, Inv (n + 1) s → Eventually text (Inv n) s)
    (hlast : ∀ s, Inv 0 s → Eventually text P s) {n : Nat} (h : Inv n s) :
    Eventually text P s := by
  induction n generalizing s with
  | zero => exact hlast s h
  | succ n ih => exact (hround n s h).trans fun _ ht => ih ht

end Runs

end CompOrg.X86
