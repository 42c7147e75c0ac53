import CompOrg.Lib.X86

/-! # minimum.s and maximum.s

Both programs scan a table of signed words that a zero ends. `minimum.s` looks at the zero
before it compares, so the zero is not an item. `maximum.s` compares first, so the zero takes
part: a table without a positive item has maximum 0. `minimum.s` is assembled for 64-bit words and
hands its result to `printf`; `maximum.s` is assembled for 32-bit words and hands it to the exit
call.
-/

namespace CompOrg.Assembly

open X86 AddressSpace

/-! ## Tables and extreme items -/

section Table

variable {w : Nat}

/-- The items of a table at `a` and the zero behind them. -/
def Listed (m : AddressSpace w) : BitVec w → List (BitVec w) → Prop
  | a, [] => m.read a = 0
  | a, x :: xs => m.read a = x ∧ x ≠ 0 ∧ Listed m (a + BitVec.ofNat w (w / 8)) xs

/-- The word that a scan reads next. -/
def current (xs : List (BitVec w)) : BitVec w := xs.headD 0

theorem Listed.read {m : AddressSpace w} {a : BitVec w} {xs : List (BitVec w)}
    (h : Listed m a xs) : m.read a = current xs := by
  cases xs with
  | nil => exact h
  | cons x xs => exact h.1

end Table

section Extreme

variable {α : Type*} {r : α → α → Prop} {v y : α} {xs : List α}

/-- An item that stands in relation `r` to all items. -/
def Extreme (r : α → α → Prop) (v : α) (xs : List α) : Prop := v ∈ xs ∧ ∀ x ∈ xs, r v x

theorem Extreme.keep (h : Extreme r v xs) (hy : r v y) : Extreme r v (xs ++ [y]) := by
  refine ⟨List.mem_append_left _ h.1, fun x hx => ?_⟩
  rcases List.mem_append.mp hx with hx | hx
  · exact h.2 x hx
  · rw [List.mem_singleton.mp hx]
    exact hy

theorem Extreme.replace (htrans : ∀ x y z, r x y → r y z → r x z) (h : Extreme r v xs)
    (hrefl : r y y) (hy : r y v) : Extreme r y (xs ++ [y]) := by
  refine ⟨List.mem_append_right _ List.mem_cons_self, fun x hx => ?_⟩
  rcases List.mem_append.mp hx with hx | hx
  · exact htrans _ _ _ hy (h.2 x hx)
  · rw [List.mem_singleton.mp hx]
    exact hrefl

end Extreme

/-! ## minimum.s -/

inductive MinimumLabel
  | main | start_loop | loop_exit | printf
deriving DecidableEq, Repr

/-- `disp(,r,scale)` -/
abbrev indexed {w : Nat} (disp : BitVec w) (r : Reg) (scale : BitVec w) : Operand w :=
  .place (.mem ⟨disp, none, some (r, scale)⟩)

section Source

open Reg

def minimumLines (data_items frmtstring : BitVec 64) : List (Line 64 MinimumLabel) :=
  [.label .main,
   .code (.mov (.imm 0) (.reg cx)),
   .code (.mov (indexed data_items cx 8) (.reg ax)),
   .code (.mov (.place (.reg ax)) (.reg bx)),
   .code (.cmp (.imm 0) (.place (.reg ax))),
   .code (.jcc .e .loop_exit),
   .label .start_loop,
   .code (.inc (.reg cx)),
   .code (.mov (indexed data_items cx 8) (.reg ax)),
   .code (.cmp (.imm 0) (.place (.reg ax))),
   .code (.jcc .e .loop_exit),
   .code (.cmp (.place (.reg bx)) (.place (.reg ax))),
   .code (.jcc .ge .start_loop),
   .code (.mov (.place (.reg ax)) (.reg bx)),
   .code (.jmp .start_loop),
   .label .loop_exit,
   .code (.mov (.place (.reg bx)) (.reg si)),
   .code (.mov (.imm frmtstring) (.reg di)),
   .code (.call .printf),
   .code (.mov (.imm 0) (.reg ax)),
   .code .ret]

end Source

section Minimum

variable {text : Text 64} {sym : MinimumLabel → BitVec 64} {a data_items frmtstring : BitVec 64}

/-- At the loop head, behind the items `seen` with `rest` to come. -/
structure MinimumLoop (data head : BitVec 64) (seen rest : List (BitVec 64)) (s : State 64) :
    Prop where
  pc : s.pc = head
  ahead : Listed s.mem (data + (s.regs .cx + 1#64) * 8#64) rest
  least : Extreme (fun v x => v.toInt ≤ x.toInt) (s.regs .bx) seen

/-- What `printf` is called with. -/
structure MinimumCall (target frmtstring result : BitVec 64) (t : State 64) : Prop where
  pc : t.pc = target
  format : t.regs .di = frmtstring
  /-- No vector registers, as a variadic call says in `%al`. -/
  vectors : t.regs .ax = 0
  result : t.regs .si = result

theorem minimum_exit (hp : Placed text sym a (minimumLines data_items frmtstring))
    {s : State 64} (hpc : s.pc = sym .loop_exit) (hax : s.regs .ax = 0) :
    Eventually text (MinimumCall (sym .printf) frmtstring (s.regs .bx)) s := by
  obtain ⟨e, htail⟩ := hp.drop 15
  simp only [minimumLines, List.drop, Placed, Instr.map] at htail
  obtain ⟨hend, a₁, h₁, a₂, h₂, a₃, h₃, -⟩ := htail
  apply Eventually.step (hpc.trans hend) h₁ rfl
  apply Eventually.step rfl h₂ rfl
  apply Eventually.step rfl h₃ rfl
  apply Eventually.done
  constructor
  case pc => rfl
  case format => simp
  case vectors => simp [hax]
  case result => simp

theorem minimum_loop (seen rest : List (BitVec 64))
    (hp : Placed text sym a (minimumLines data_items frmtstring)) {s : State 64}
    (hs : MinimumLoop data_items (sym .start_loop) seen rest s) :
    Eventually text (fun t => ∃ v, Extreme (fun v x => v.toInt ≤ x.toInt) v (seen ++ rest) ∧
      MinimumCall (sym .printf) frmtstring v t) s := by
  obtain ⟨l, hbody⟩ := hp.drop 6
  simp only [minimumLines, List.drop, Placed, Instr.map] at hbody
  obtain ⟨hloop, a₁, h₁, a₂, h₂, a₃, h₃, a₄, h₄, a₅, h₅, a₆, h₆, a₇, h₇, a₈, h₈, -⟩ := hbody
  induction rest generalizing seen s with
  | nil =>
      have hread := hs.ahead.read
      apply Eventually.step (hs.pc.trans hloop) h₁ rfl
      apply Eventually.step rfl h₂ rfl
      apply Eventually.step rfl h₃ rfl
      apply Eventually.jump rfl h₄ rfl (holds_e _ _)
      · intro hzero
        apply (minimum_exit hp rfl (by simpa using hzero)).trans
        intro t ht
        apply Eventually.done
        refine ⟨s.regs .bx, by simpa using hs.least, ?_⟩
        simpa using ht
      · intro hmore
        exact absurd (by simpa [current] using hread) hmore
  | cons x rest ih =>
      have hread := hs.ahead.read
      obtain ⟨-, hx, hahead⟩ := hs.ahead
      have hnext : data_items + (s.regs .cx + 1#64) * 8#64 + 8#64 =
          data_items + (s.regs .cx + 1#64 + 1#64) * 8#64 := by
        rw [BitVec.add_assoc, BitVec.add_mul (x := s.regs .cx + 1#64)]
        rfl
      have hahead' : Listed s.mem (data_items + (s.regs .cx + 1#64 + 1#64) * 8#64) rest :=
        hnext ▸ hahead
      rw [List.append_cons seen x rest]
      apply Eventually.step (hs.pc.trans hloop) h₁ rfl
      apply Eventually.step rfl h₂ rfl
      apply Eventually.step rfl h₃ rfl
      apply Eventually.jump rfl h₄ rfl (holds_e _ _)
      · intro hzero
        exact absurd (by simpa [hread, current] using hzero) hx
      intro hmore
      apply Eventually.step rfl h₅ rfl
      apply Eventually.jump rfl h₆ rfl (holds_ge _ _)
      · intro hge
        simp [hread, current] at hge
        apply ih
        constructor
        case pc => rfl
        case ahead => simpa using hahead'
        case least => simpa using hs.least.keep hge
      · intro hlt
        simp [hread, current] at hlt
        apply Eventually.step rfl h₇ rfl
        apply Eventually.step rfl h₈ rfl
        apply ih
        constructor
        case pc => rfl
        case ahead => simpa using hahead'
        case least =>
          simp [hread, current]
          exact hs.least.replace (fun _ _ _ => Int.le_trans) (Int.le_refl _) (Int.le_of_lt hlt)

/-- From any state whose data holds a list of nonzero items, `minimum.s` calls `printf` with
the least of them, and with 0 when there is none. -/
theorem minimum_correct (hp : Placed text sym a (minimumLines data_items frmtstring))
    {items : List (BitVec 64)} {s : State 64} (hdata : Listed s.mem data_items items)
    (hpc : s.pc = sym .main) :
    Eventually text (fun t => t.pc = sym .printf ∧ t.regs .di = frmtstring ∧ t.regs .ax = 0 ∧
      (items = [] → t.regs .si = 0) ∧
      (items ≠ [] → t.regs .si ∈ items ∧ ∀ x ∈ items, (t.regs .si).toInt ≤ x.toInt)) s := by
  have hread := hdata.read
  have hlines := hp
  simp only [minimumLines, Placed, Instr.map] at hlines
  obtain ⟨hmain, a₁, h₁, a₂, h₂, a₃, h₃, a₄, h₄, a₅, h₅, hloop, -⟩ := hlines
  apply Eventually.step (hpc.trans hmain) h₁ rfl
  apply Eventually.step rfl h₂ rfl
  apply Eventually.step rfl h₃ rfl
  apply Eventually.step rfl h₄ rfl
  apply Eventually.jump rfl h₅ rfl (holds_e _ _)
  · intro hzero
    have hnone : items = [] := by
      cases items with
      | nil => rfl
      | cons x xs => exact absurd (by simpa [hread, current] using hzero) hdata.2.1
    apply (minimum_exit hp rfl (by simpa using hzero)).trans
    intro t ht
    apply Eventually.done
    refine ⟨ht.pc, ht.format, ht.vectors, fun _ => ?_, fun hsome => absurd hnone hsome⟩
    rw [ht.result]
    simpa using hzero
  · intro hmore
    cases items with
    | nil => exact absurd (by simpa [current] using hread) hmore
    | cons x rest =>
        obtain ⟨-, -, hahead⟩ := hdata
        apply (minimum_loop [x] rest hp ?_).trans
        · rintro t ⟨v, hv, ht⟩
          apply Eventually.done
          refine ⟨ht.pc, ht.format, ht.vectors, fun hnil => absurd hnil (List.cons_ne_nil x rest),
            fun _ => ?_⟩
          rw [ht.result]
          exact hv
        constructor
        case pc => exact hloop.symm
        case ahead => simpa using hahead
        case least =>
          simp [hread, current]
          exact ⟨List.mem_cons_self, fun y hy => by rw [List.mem_singleton.mp hy]⟩

end Minimum

/-- `minimum.s` from address 0 on, with its data at address 1000. -/
def minimumSymbols : MinimumLabel → BitVec 64
  | .main => 0
  | .start_loop => 5
  | .loop_exit => 13
  | .printf => 100

def minimumText : Text 64 := flat minimumSymbols (minimumLines 1000 2000)

theorem minimumText_placed : Placed minimumText minimumSymbols 0 (minimumLines 1000 2000) :=
  ⟨rfl, _, rfl, _, rfl, _, rfl, _, rfl, _, rfl, rfl, _, rfl, _, rfl, _, rfl, _, rfl, _, rfl,
    _, rfl, _, rfl, _, rfl, rfl, _, rfl, _, rfl, _, rfl, _, rfl, _, rfl, trivial⟩

/-- The items 3 and -1. -/
def minimumStart : State 64 where
  pc := 0
  regs := fun _ => 0
  mem := fun x => if x = 1000 then 3 else if 1008 ≤ x ∧ x < 1016 then 255 else 0
  flags := none

theorem minimumStart_listed : Listed minimumStart.mem 1000 [3, -1] :=
  ⟨by decide, by decide, by decide, by decide, (by decide : minimumStart.mem.read 1016 = 0)⟩

theorem minimumStart_prints :
    Eventually minimumText (fun t => t.pc = minimumSymbols .printf ∧ t.regs .si = -1)
      minimumStart := by
  obtain ⟨t, hrun, hpc, -, -, -, hmin⟩ :=
    minimum_correct minimumText_placed minimumStart_listed rfl
  obtain ⟨hmem, hle⟩ := hmin (by decide)
  refine ⟨t, hrun, hpc, ?_⟩
  rcases List.mem_cons.mp hmem with h | h
  · have hlow := hle (-1) (by decide)
    rw [h] at hlow
    exact absurd hlow (by decide)
  · exact List.mem_singleton.mp h

/-! ## maximum.s -/

inductive MaximumLabel
  | _start | start_loop | loop_exit
deriving DecidableEq, Repr

section Source

open Reg

/-- At 32 bits `ax`, `bx` and `di` are `%eax`, `%ebx` and `%edi`. -/
def maximumLines (data_items : BitVec 32) : List (Line 32 MaximumLabel) :=
  [.label ._start,
   .code (.mov (.imm 0) (.reg di)),
   .code (.mov (indexed data_items di 4) (.reg ax)),
   .code (.mov (.place (.reg ax)) (.reg bx)),
   .label .start_loop,
   .code (.cmp (.imm 0) (.place (.reg ax))),
   .code (.jcc .e .loop_exit),
   .code (.inc (.reg di)),
   .code (.mov (indexed data_items di 4) (.reg ax)),
   .code (.cmp (.place (.reg bx)) (.place (.reg ax))),
   .code (.jcc .le .start_loop),
   .code (.mov (.place (.reg ax)) (.reg bx)),
   .code (.jmp .start_loop),
   .label .loop_exit,
   .code (.mov (.imm 1) (.reg ax)),
   .code (.int 0x80)]

end Source

section Maximum

variable {text : Text 32} {sym : MaximumLabel → BitVec 32} {a data_items : BitVec 32}

/-- At the loop head, with the first word of `rest` already loaded and compared. -/
structure MaximumLoop (data head : BitVec 32) (seen rest : List (BitVec 32)) (s : State 32) :
    Prop where
  pc : s.pc = head
  loaded : s.regs .ax = current rest
  ahead : Listed s.mem (data + s.regs .di * 4#32) rest
  greatest : Extreme (fun v x => x.toInt ≤ v.toInt) (s.regs .bx) (seen ++ [current rest])

theorem maximum_loop (seen rest : List (BitVec 32))
    (hp : Placed text sym a (maximumLines data_items)) {s : State 32}
    (hs : MaximumLoop data_items (sym .start_loop) seen rest s) :
    Eventually text (fun t => (∃ next, text t.pc = some (.int 0x80, next)) ∧ t.regs .ax = 1 ∧
      Extreme (fun v x => x.toInt ≤ v.toInt) (t.regs .bx) (seen ++ rest ++ [0])) s := by
  obtain ⟨l, hbody⟩ := hp.drop 4
  simp only [maximumLines, List.drop, Placed, Instr.map] at hbody
  obtain ⟨hloop, a₁, h₁, a₂, h₂, a₃, h₃, a₄, h₄, a₅, h₅, a₆, h₆, a₇, h₇, a₈, h₈, hend, a₉, h₉,
    a₁₀, h₁₀, -⟩ := hbody
  induction rest generalizing seen s with
  | nil =>
      apply Eventually.step (hs.pc.trans hloop) h₁ rfl
      apply Eventually.jump rfl h₂ rfl (holds_e _ _)
      · intro hzero
        apply Eventually.step hend h₉ rfl
        apply Eventually.done
        refine ⟨⟨a₁₀, h₁₀⟩, by simp, ?_⟩
        simpa [current] using hs.greatest
      · exact fun hmore => absurd hs.loaded hmore
  | cons x rest ih =>
      obtain ⟨-, hx, hahead⟩ := hs.ahead
      have hnext : data_items + s.regs .di * 4#32 + 4#32 =
          data_items + (s.regs .di + 1#32) * 4#32 := by
        rw [BitVec.add_assoc, BitVec.add_mul (x := s.regs .di)]
        rfl
      have hahead' : Listed s.mem (data_items + (s.regs .di + 1#32) * 4#32) rest :=
        hnext ▸ hahead
      have hread := hahead'.read
      have hgreatest : Extreme (fun v x => x.toInt ≤ v.toInt) (s.regs .bx) (seen ++ [x]) :=
        hs.greatest
      rw [List.append_cons seen x rest]
      apply Eventually.step (hs.pc.trans hloop) h₁ rfl
      apply Eventually.jump rfl h₂ rfl (holds_e _ _)
      · exact fun hzero => absurd (hs.loaded.symm.trans hzero) hx
      intro hmore
      apply Eventually.step rfl h₃ rfl
      apply Eventually.step rfl h₄ rfl
      apply Eventually.step rfl h₅ rfl
      apply Eventually.jump rfl h₆ rfl (holds_le _ _)
      · intro hle
        simp [hread] at hle
        apply ih
        constructor
        case pc => rfl
        case loaded => simpa using hread
        case ahead => simpa using hahead'
        case greatest => simpa using hgreatest.keep hle
      · intro hgt
        simp [hread] at hgt
        apply Eventually.step rfl h₇ rfl
        apply Eventually.step rfl h₈ rfl
        apply ih
        constructor
        case pc => rfl
        case loaded => simpa using hread
        case ahead => simpa using hahead'
        case greatest =>
          have hless : (s.regs .bx).toInt ≤ (current rest).toInt := Int.le_of_lt hgt
          have hnew : Extreme (fun v x => x.toInt ≤ v.toInt) (current rest)
              (seen ++ [x] ++ [current rest]) :=
            hgreatest.replace (fun _ _ _ h h' => Int.le_trans h' h) le_rfl hless
          simpa [hread] using hnew

/-- From any state whose data holds a list of nonzero items, `maximum.s` makes the exit call
with the greatest of the items and 0. -/
theorem maximum_correct (hp : Placed text sym a (maximumLines data_items))
    {items : List (BitVec 32)} {s : State 32} (hdata : Listed s.mem data_items items)
    (hpc : s.pc = sym ._start) :
    Eventually text (fun t => (∃ next, text t.pc = some (.int 0x80, next)) ∧ t.regs .ax = 1 ∧
      t.regs .bx ∈ 0 :: items ∧ ∀ x ∈ 0 :: items, x.toInt ≤ (t.regs .bx).toInt) s := by
  have hread := hdata.read
  have hlines := hp
  simp only [maximumLines, Placed, Instr.map] at hlines
  obtain ⟨hstart, a₁, h₁, a₂, h₂, a₃, h₃, hloop, -⟩ := hlines
  apply Eventually.step (hpc.trans hstart) h₁ rfl
  apply Eventually.step rfl h₂ rfl
  apply Eventually.step rfl h₃ rfl
  apply (maximum_loop [] items hp ?_).trans
  · rintro t ⟨hint, hax, hmem, hall⟩
    apply Eventually.done
    refine ⟨hint, hax, by simpa [or_comm] using hmem, fun x hx => hall x ?_⟩
    simpa [or_comm] using hx
  constructor
  case pc => exact hloop.symm
  case loaded => simpa using hread
  case ahead => simpa using hdata
  case greatest =>
    simp [hread]
    exact ⟨List.mem_cons_self, fun y hy => by rw [List.mem_singleton.mp hy]⟩

end Maximum

def maximumSymbols : MaximumLabel → BitVec 32
  | ._start => 0
  | .start_loop => 3
  | .loop_exit => 11

def maximumText : Text 32 := flat maximumSymbols (maximumLines 1000)

theorem maximumText_placed : Placed maximumText maximumSymbols 0 (maximumLines 1000) :=
  ⟨rfl, _, rfl, _, rfl, _, rfl, rfl, _, rfl, _, rfl, _, rfl, _, rfl, _, rfl, _, rfl, _, rfl,
    _, rfl, rfl, _, rfl, _, rfl, trivial⟩

/-- The items 5, -1, 9 and 2. -/
def maximumStart : State 32 where
  pc := 0
  regs := fun _ => 0
  mem := fun x =>
    if x = 1000 then 5 else if 1004 ≤ x ∧ x < 1008 then 255 else if x = 1008 then 9
    else if x = 1012 then 2 else 0
  flags := none

theorem maximumStart_listed : Listed maximumStart.mem 1000 [5, -1, 9, 2] :=
  ⟨by decide, by decide, by decide, by decide, by decide, by decide, by decide, by decide,
    (by decide : maximumStart.mem.read 1016 = 0)⟩

theorem maximumStart_exits :
    Eventually maximumText (fun t => t.regs .ax = 1 ∧ t.regs .bx = 9) maximumStart := by
  obtain ⟨t, hrun, -, hax, hmem, hle⟩ :=
    maximum_correct maximumText_placed maximumStart_listed rfl
  refine ⟨t, hrun, hax, ?_⟩
  have hhigh := hle 9 (by decide)
  simp only [List.mem_cons, List.not_mem_nil, or_false] at hmem
  rcases hmem with h | h | h | h | h
  case inr.inr.inr.inl => exact h
  all_goals
    rw [h] at hhigh
    exact absurd hhigh (by decide)

end CompOrg.Assembly
