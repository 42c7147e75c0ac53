import CompOrg.Malloc.Checking
import Mathlib.Algebra.Order.BigOperators.Group.List
import Mathlib.Data.List.Perm.Basic

/-! # Space utilization

`eval_mm_util` divides the greatest total of live payload bytes, which the trace
alone determines, by the size of the heap at the end. No live payload is lost from
sight of the ledger below, every one of them has a block of its own with eight bytes
of tags, and the heap never shrinks: the quotient stays below one.
-/

namespace CompOrg.Malloc

open Segments

/-! ## What a trace asks for -/

/-- Sizes by id, their running total and its greatest value so far. -/
structure Load where
  sizes : Nat → Int
  total : Int
  peak : Int

def Load.step (l : Load) (op : TraceOp) : Load :=
  let i := op.index.toNat
  match op.type with
  | .alloc =>
      ⟨Function.update l.sizes i op.size, l.total + op.size, max l.peak (l.total + op.size)⟩
  | .realloc =>
      let total := l.total + (op.size - l.sizes i)
      ⟨Function.update l.sizes i op.size, total, max l.peak total⟩
  | .free => { l with total := l.total - l.sizes i }

def Load.initial : Load := ⟨fun _ => 0, 0, 0⟩

def Trace.highWater (t : Trace) : Int := (t.ops.foldl Load.step Load.initial).peak

/-! ## The heap never shrinks -/

namespace NextFit

theorem span_place (a : NextFit) (w : Block) (o : Nat) :
    span (a.place w o).blocks = span a.blocks :=
  extent_replaceAt _ (span_split w) o firstOffset a.blocks

theorem span_grow (a : NextFit) (c : Block) :
    span (a.grow c).blocks = span a.blocks + c.size := by
  rw [grow, span_coalesceAll]
  simp

theorem span_free (a : NextFit) (o : Nat) : span (a.free o).blocks = span a.blocks := by
  rw [free, span_coalesceAll]
  exact extent_replaceAt _ (fun b => by simp) o firstOffset a.blocks

theorem span_le_malloc (a : NextFit) (size : Nat) :
    span a.blocks ≤ span (a.malloc size).1.blocks := by
  unfold malloc
  split
  · exact Nat.le_refl _
  split
  · exact (span_place _ _ _).ge
  split
  · rw [span_place, span_grow]
    omega
  · exact Nat.le_refl _

theorem span_le_realloc (a : NextFit) (o size : Nat) :
    span a.blocks ≤ span (a.realloc o size).1.blocks := by
  have hmalloc := span_le_malloc a size
  unfold realloc
  split
  · exact (span_free a o).ge
  rcases hm : a.malloc size with ⟨b, _ | p⟩
  · rwa [hm] at hmalloc
  · rw [hm] at hmalloc
    rwa [span_free]

end NextFit

/-! ## Payloads in blocks of their own -/

/-- Payloads in different allocated blocks, each with room for its tags, fit together
into the list of blocks. -/
theorem sum_payloads_le_span {base : Nat} {bs : List Block} {L : List (Nat × Nat)}
    (hdistinct : (L.map Prod.fst).Nodup)
    (hroomy : ∀ e ∈ L, ∃ n, AllocAt base bs e.1 n ∧ e.2 + 8 ≤ n) :
    (L.map fun e => e.2 + 8).sum ≤ span bs := by
  induction bs generalizing base L with
  | nil =>
      cases L with
      | nil => simp
      | cons e L =>
          obtain ⟨n, hn, -⟩ := hroomy e List.mem_cons_self
          exact (not_allocAt_nil hn).elim
  | cons b bs ih =>
      -- at most one of the payloads lies in the first block
      by_cases hfirst : ∃ e ∈ L, e.1 = base
      · obtain ⟨e, he, hbase⟩ := hfirst
        have hperm := List.perm_cons_erase he
        have hnodup := (hperm.map Prod.fst).nodup_iff.mp hdistinct
        rw [List.map_cons, List.nodup_cons] at hnodup
        have hrest : ∀ x ∈ L.erase e, ∃ n, AllocAt (base + b.size) bs x.1 n ∧ x.2 + 8 ≤ n := by
          intro x hx
          obtain ⟨n, hn, hle⟩ := hroomy x (List.mem_of_mem_erase hx)
          rcases allocAt_cons.mp hn with ⟨heq, -⟩ | hn
          · exact (hnodup.1 (List.mem_map.mpr ⟨x, hx, heq.trans hbase.symm⟩)).elim
          · exact ⟨n, hn, hle⟩
        have hsum := ih hnodup.2 hrest
        obtain ⟨n, hn, hle⟩ := hroomy e he
        have hsize : n = b.size := by
          rcases allocAt_cons.mp hn with ⟨-, -, hsize⟩ | hn
          · exact hsize.symm
          · have := AllocAt.bounds hn
            have := b.size_pos
            omega
        rw [(hperm.map _).sum_eq, List.map_cons, List.sum_cons, span_cons]
        omega
      · have hrest : ∀ x ∈ L, ∃ n, AllocAt (base + b.size) bs x.1 n ∧ x.2 + 8 ≤ n := by
          intro x hx
          obtain ⟨n, hn, hle⟩ := hroomy x hx
          rcases allocAt_cons.mp hn with ⟨heq, -⟩ | hn
          · exact (hfirst ⟨x, hx, heq⟩).elim
          · exact ⟨n, hn, hle⟩
        have hsum := ih hdistinct hrest
        rw [span_cons]
        omega

/-! ## The ledger -/

/-- The live payloads, also those whose id was allocated again: what is held is among
them, and the load adds them up. -/
structure Ledger (r : Replay) (l : Load) (L : List (Nat × Nat)) : Prop where
  distinct : (L.map Prod.fst).Nodup
  roomy : ∀ e ∈ L, ∃ n, r.next.Alloc e.1 n ∧ e.2 + 8 ≤ n
  held : ∀ i e, r.held i = some e → e ∈ L
  sizes : ∀ i o s, r.held i = some (o, s) → l.sizes i = s
  total : l.total = ((L.map Prod.snd).sum : Nat)
  peak : l.total ≤ l.peak
  bound : l.peak + 8 ≤ span r.next.blocks

section Ledger

variable {r : Replay} {l : Load} {L L' : List (Nat × Nat)} {a : NextFit} {i o p s size n : Nat}

theorem ledger_initial : Ledger Replay.initial Load.initial [] where
  distinct := List.nodup_nil
  roomy e he := by simp at he
  held i e he := by simp [Replay.initial] at he
  sizes i o s he := by simp [Replay.initial] at he
  total := rfl
  peak := le_refl _
  bound := by decide

theorem Ledger.perm (h : Ledger r l L) (hp : L.Perm L') : Ledger r l L' where
  distinct := (hp.map Prod.fst).nodup_iff.mp h.distinct
  roomy e he := h.roomy e (hp.mem_iff.mpr he)
  held i e he := hp.mem_iff.mp (h.held i e he)
  sizes := h.sizes
  total := by rw [h.total, (hp.map Prod.snd).sum_eq]
  peak := h.peak
  bound := h.bound

/-- A held payload at the head of the ledger. -/
theorem Ledger.expose (h : Ledger r l L) (hi : r.held i = some (o, s)) :
    ∃ L', Ledger r l ((o, s) :: L') :=
  ⟨_, h.perm (List.perm_cons_erase (h.held i _ hi))⟩

/-- A new payload replaces the load of its id. -/
theorem Ledger.put {total : Int} (hdistinct : (((p, size) :: L).map Prod.fst).Nodup)
    (hroomy : ∀ e ∈ (p, size) :: L, ∃ n, a.Alloc e.1 n ∧ e.2 + 8 ≤ n)
    (hheld : ∀ j e, j ≠ i → r.held j = some e → e ∈ L)
    (hsizes : ∀ j o s, r.held j = some (o, s) → l.sizes j = s)
    (htotal : total = size + ((L.map Prod.snd).sum : Nat))
    (hbound : l.peak + 8 ≤ span a.blocks) :
    Ledger ⟨a, Function.update r.held i (some (p, size))⟩
      ⟨Function.update l.sizes i size, total, max l.peak total⟩ ((p, size) :: L) := by
  have hsum := sum_payloads_le_span hdistinct hroomy
  have hle : (L.map Prod.snd).sum ≤ (L.map fun e => e.2 + 8).sum :=
    List.sum_le_sum fun e _ => Nat.le_add_right _ _
  rw [List.map_cons, List.sum_cons] at hsum
  refine ⟨hdistinct, hroomy, ?_, ?_, ?_, le_max_right _ _, ?_⟩
  · intro j e hj
    rcases update_eq_some_iff.mp hj with ⟨-, rfl⟩ | ⟨hne, hj'⟩
    · exact List.mem_cons_self
    · exact List.mem_cons_of_mem _ (hheld j e hne hj')
  · intro j q t hj
    rcases update_eq_some_iff.mp hj with ⟨rfl, heq⟩ | ⟨hne, hj'⟩
    · rw [(Prod.mk.inj heq).2]
      exact Function.update_self ..
    · exact (Function.update_of_ne hne ..).trans (hsizes j q t hj')
  · simp [htotal]
  · dsimp only
    omega

theorem Ledger.served (h : Ledger r l L) (hs : NextFit.Served r.next a size o)
    (hspan : span r.next.blocks ≤ span a.blocks) :
    Ledger ⟨a, Function.update r.held i (some (o, size))⟩
      ⟨Function.update l.sizes i size, l.total + size, max l.peak (l.total + size)⟩
      ((o, size) :: L) := by
  obtain ⟨k, hk, hiff⟩ := hs.alloc
  refine Ledger.put ?_ ?_ (fun j e _ => h.held j e) h.sizes (by rw [h.total]; omega)
    (by have := h.bound; omega)
  · refine List.nodup_cons.mpr ⟨fun hmem => ?_, h.distinct⟩
    obtain ⟨e, he, heq⟩ := List.mem_map.mp hmem
    obtain ⟨n, hn, -⟩ := h.roomy e he
    exact hs.fresh n ((show e.1 = o from heq) ▸ hn)
  · intro e he
    rcases List.mem_cons.mp he with rfl | he
    · exact ⟨k, (hiff o k).mpr (Or.inr ⟨rfl, rfl⟩), hk⟩
    · obtain ⟨n, hn, hle⟩ := h.roomy e he
      exact ⟨n, (hiff _ n).mpr (Or.inl hn), hle⟩

/-- The payloads other than the one at the head lie elsewhere. -/
theorem Ledger.others (h : Ledger r l ((o, s) :: L)) (hv : r.Valid)
    (hi : r.held i = some (o, s)) :
    (∀ e ∈ L, e.1 ≠ o) ∧ ∀ j e, j ≠ i → r.held j = some e → e ∈ L := by
  have hnodup := h.distinct
  rw [List.map_cons, List.nodup_cons] at hnodup
  refine ⟨fun e he heq => hnodup.1 (List.mem_map.mpr ⟨e, he, heq⟩), fun j e hne hj => ?_⟩
  rcases List.mem_cons.mp (h.held j e hj) with rfl | hmem
  · exact (hne (hv.apart j i o s s hj hi)).elim
  · exact hmem

theorem Ledger.moved (h : Ledger r l ((o, s) :: L)) (hv : r.Valid) (hi : r.held i = some (o, s))
    (hm : NextFit.Moved r.next a o size p) (hspan : span r.next.blocks ≤ span a.blocks) :
    Ledger ⟨a, Function.update r.held i (some (p, size))⟩
      ⟨Function.update l.sizes i size, l.total + (size - l.sizes i),
        max l.peak (l.total + (size - l.sizes i))⟩ ((p, size) :: L) := by
  obtain ⟨k, hk, hiff⟩ := hm.alloc
  obtain ⟨hother, hheld⟩ := h.others hv hi
  have htotal := h.total
  rw [List.map_cons, List.sum_cons] at htotal
  refine Ledger.put ?_ ?_ hheld h.sizes (by rw [h.sizes i o s hi, htotal]; push_cast; omega)
    (by have := h.bound; omega)
  · refine List.nodup_cons.mpr ⟨fun hmem => ?_, (List.nodup_cons.mp h.distinct).2⟩
    obtain ⟨e, he, heq⟩ := List.mem_map.mp hmem
    obtain ⟨n, hn, -⟩ := h.roomy e (List.mem_cons_of_mem _ he)
    exact hm.fresh n ((show e.1 = p from heq) ▸ hn)
  · intro e he
    rcases List.mem_cons.mp he with rfl | he
    · exact ⟨k, (hiff p k).mpr (Or.inr ⟨rfl, rfl⟩), hk⟩
    · obtain ⟨n, hn, hle⟩ := h.roomy e (List.mem_cons_of_mem _ he)
      exact ⟨n, (hiff _ n).mpr (Or.inl ⟨hn, hother e he⟩), hle⟩

theorem Ledger.freed (h : Ledger r l ((o, s) :: L)) (hv : r.Valid) (hi : r.held i = some (o, s)) :
    Ledger ⟨r.next.free o, Function.update r.held i none⟩
      { l with total := l.total - l.sizes i } L := by
  obtain ⟨hother, hheld⟩ := h.others hv hi
  obtain ⟨n, hn, -⟩ := hv.roomy i o s hi
  obtain ⟨pre, b, post, hblocks, ho, -, -⟩ := hn.cut
  have htotal := h.total
  have hsize := h.sizes i o s hi
  have hpeak := h.peak
  rw [List.map_cons, List.sum_cons] at htotal
  refine ⟨(List.nodup_cons.mp h.distinct).2, ?_, ?_, ?_, ?_, ?_, ?_⟩
  · intro e he
    obtain ⟨m, hm, hle⟩ := h.roomy e (List.mem_cons_of_mem _ he)
    exact ⟨m, (NextFit.alloc_free hblocks ho _ m).mpr ⟨hm, hother e he⟩, hle⟩
  · intro j e hj
    obtain ⟨hne, hj'⟩ := update_none_eq_some_iff.mp hj
    exact hheld j e hne hj'
  · exact fun j q t hj => h.sizes j q t (update_none_eq_some_iff.mp hj).2
  · dsimp only
    omega
  · dsimp only
    omega
  · dsimp only
    rw [NextFit.span_free]
    exact h.bound

/-- Every served request keeps the ledger in step with the load. -/
theorem Ledger.serve {r' : Replay} {op : TraceOp} (h : Ledger r l L) (hv : r.Valid)
    (hsize : op.type ≠ .free → 0 ≤ op.size) (hs : r.serve op = some r') :
    ∃ L', Ledger r' (l.step op) L' := by
  unfold Replay.serve at hs
  unfold Load.step
  cases ht : op.type with
  | alloc =>
      simp only [ht] at hs ⊢
      obtain ⟨size, hn⟩ := Int.eq_ofNat_of_zero_le (hsize (by simp [ht]))
      rw [hn, Int.toNat_natCast] at hs
      rcases hm : r.next.malloc size with ⟨a, _ | o⟩
      · simp [hm] at hs
      · rw [hm] at hs
        cases hs
        have hspan := NextFit.span_le_malloc r.next size
        rw [hm] at hspan
        rw [hn]
        exact ⟨_, h.served (NextFit.malloc_some hv.next hm) hspan⟩
  | realloc =>
      simp only [ht] at hs ⊢
      obtain ⟨size, hn⟩ := Int.eq_ofNat_of_zero_le (hsize (by simp [ht]))
      rw [hn, Int.toNat_natCast] at hs
      obtain ⟨⟨o, s⟩, hi, hs⟩ := Option.bind_eq_some_iff.mp hs
      obtain ⟨n, halloc, -⟩ := hv.roomy _ o s hi
      obtain ⟨L', h'⟩ := h.expose hi
      rcases hm : r.next.realloc o size with ⟨a, _ | p⟩
      · simp [hm] at hs
      · rw [hm] at hs
        cases hs
        have hspan := NextFit.span_le_realloc r.next o size
        rw [hm] at hspan
        rw [hn]
        exact ⟨_, h'.moved hv hi (NextFit.realloc_some hv.next halloc hm) hspan⟩
  | free =>
      simp only [ht] at hs ⊢
      obtain ⟨⟨o, s⟩, hi, rfl⟩ := Option.map_eq_some_iff.mp hs
      obtain ⟨L', h'⟩ := h.expose hi
      exact ⟨_, h'.freed hv hi⟩

end Ledger

/-! ## The loop -/

/-- What the loop keeps: the heap, the sizes of the held blocks, and the two totals. -/
structure Uses (u : Usage) (r : Replay) (l : Load) : Prop where
  tracks : Tracks u.driver.heap u.driver.blocks r
  sizes : ∀ i o s, r.held i = some (o, s) → u.driver.blockSizes i = s ∧ s < 2 ^ 31
  total : u.totalSize = l.total
  peak : u.maxTotalSize = l.peak
  ledger : ∃ L, Ledger r l L

theorem Represents.span_le {h : Heap} {a : NextFit} (R : Represents h a) :
    span a.blocks + firstOffset ≤ MAX_HEAP := by
  have := R.layout.brk
  have := R.layout.inBounds
  have := R.layout.maxAddr
  omega

/-- The totals of a ledger are far from the ends of `int`. -/
theorem Ledger.total_range {h : Heap} {r : Replay} {l : Load} {L : List (Nat × Nat)}
    (hl : Ledger r l L) (R : Represents h r.next) :
    0 ≤ l.total ∧ l.total ≤ l.peak ∧ l.total ≤ 2147483647 := by
  have := R.span_le
  have htotal := hl.total
  have hpeak := hl.peak
  have hbound := hl.bound
  unfold firstOffset MAX_HEAP at *
  omega

section Loop

variable {numIds : Int} {u : Usage} {r r' : Replay} {l : Load}

theorem sizes_update {held : Nat → Option (Nat × Nat)} {sizes : Nat → Nat} {i p s : Nat}
    (h : ∀ j q t, held j = some (q, t) → sizes j = t ∧ t < 2 ^ 31) (hs : s < 2 ^ 31) (j q t : Nat)
    (hj : Function.update held i (some (p, s)) j = some (q, t)) :
    Function.update sizes i s j = t ∧ t < 2 ^ 31 := by
  rcases update_eq_some_iff.mp hj with ⟨rfl, heq⟩ | ⟨hne, hj'⟩
  · rw [(Prod.mk.inj heq).2]
    exact ⟨Function.update_self .., hs⟩
  · rw [Function.update_of_ne hne]
    exact h j q t hj'

theorem Usage.add_eq {u : Usage} {delta : Int} (h0 : 0 ≤ u.totalSize + delta)
    (h : u.totalSize + delta ≤ 2147483647) :
    u.add delta = some ⟨u.driver, u.totalSize + delta,
      max u.maxTotalSize (u.totalSize + delta)⟩ := by
  rw [Usage.add, intResult_eq_some (by omega) h, Option.map_some]
  congr 2
  split <;> omega

theorem useOp_eq {ids : List Nat} {op : TraceOp} (U : Uses u r l)
    (hop : op.WellFormed numIds ids) (hserve : r.serve op = some r') :
    ∃ u', useOp numIds u op = some (.ok u') ∧ Uses u' r' (l.step op) ∧
      u'.driver.heap.memStartBrk = u.driver.heap.memStartBrk := by
  obtain ⟨⟨h0, hi⟩, -, hsize⟩ := hop
  obtain ⟨L, hL⟩ := U.ledger
  obtain ⟨L', hL'⟩ := hL.serve U.tracks.valid (fun h => (hsize h).1) hserve
  obtain ⟨type, index, size⟩ := op
  obtain ⟨i, rfl⟩ := Int.eq_ofNat_of_zero_le h0
  dsimp only at hi
  have hslot : slot numIds i = some i := slot_eq (by omega) hi
  cases type with
  | alloc =>
      obtain ⟨hs0, hs⟩ := hsize (by simp)
      obtain ⟨s, rfl⟩ := Int.eq_ofNat_of_zero_le hs0
      dsimp only at hs
      have hsz : sizeArg s = s := sizeArg_eq (by omega) hs
      obtain ⟨h', p, a, o, hcall, hp, rfl, T, hstart⟩ :=
        U.tracks.alloc_served (by omega) hserve
      obtain ⟨htotal0, -, htotal⟩ := hL'.total_range T.heap
      simp only [Load.step] at htotal0 htotal
      rw [← U.total] at htotal0 htotal
      refine ⟨⟨⟨h', u.driver.ranges, Function.update u.driver.blocks i p,
          Function.update u.driver.blockSizes i s⟩, u.totalSize + s,
          max u.maxTotalSize (u.totalSize + s)⟩, ?_,
        ⟨T, sizes_update U.sizes (by omega), ?_, ?_, L', hL'⟩, hstart⟩
      · simp only [useOp, hsz, hcall, if_neg hp, remember, hslot, Option.map_some,
          Option.bind_some]
        rw [Usage.add_eq]
        · rfl
        · exact htotal0
        · exact htotal
      · simp [Load.step, U.total]
      · simp [Load.step, U.total, U.peak]
  | realloc =>
      obtain ⟨hs0, hs⟩ := hsize (by simp)
      obtain ⟨s, rfl⟩ := Int.eq_ofNat_of_zero_le hs0
      dsimp only at hs
      have hsz : sizeArg s = s := sizeArg_eq (by omega) hs
      obtain ⟨⟨o, old⟩, hheld⟩ : ∃ e, r.held i = some e := by
        obtain ⟨e, he, -⟩ := Option.bind_eq_some_iff.mp hserve
        exact ⟨e, he⟩
      obtain ⟨hold, holdlt⟩ := U.sizes i o old hheld
      have holdsize : toInt (u.driver.blockSizes i) = old := by rw [hold, toInt_of_lt holdlt]
      have hload := hL.sizes i o old hheld
      obtain ⟨h', p, a, q, hcall, hp, rfl, T, hstart⟩ :=
        U.tracks.realloc_served (by omega) hserve
      obtain ⟨htotal0, -, htotal⟩ := hL'.total_range T.heap
      simp only [Load.step, Int.toNat_natCast, hload] at htotal0 htotal
      rw [← U.total] at htotal0 htotal
      refine ⟨⟨⟨h', u.driver.ranges, Function.update u.driver.blocks i p,
          Function.update u.driver.blockSizes i s⟩, u.totalSize + (s - old),
          max u.maxTotalSize (u.totalSize + (s - old))⟩, ?_,
        ⟨T, sizes_update U.sizes (by omega), ?_, ?_, L', hL'⟩, hstart⟩
      · simp only [useOp, hsz, hcall, if_neg hp, remember, hslot, Option.map_some,
          Option.bind_some, holdsize]
        rw [intResult_eq_some (by omega) (by omega), Option.bind_some, Usage.add_eq]
        · rfl
        · exact htotal0
        · exact htotal
      · simp [Load.step, U.total, hload]
      · simp [Load.step, U.total, U.peak, hload]
  | free =>
      obtain ⟨⟨o, old⟩, hheld⟩ : ∃ e, r.held i = some e := by
        obtain ⟨e, he, -⟩ := Option.map_eq_some_iff.mp hserve
        exact ⟨e, he⟩
      obtain ⟨hold, holdlt⟩ := U.sizes i o old hheld
      have holdsize : toInt (u.driver.blockSizes i) = old := by rw [hold, toInt_of_lt holdlt]
      have hload := hL.sizes i o old hheld
      obtain ⟨⟨a, rfl⟩, T, hstart⟩ := U.tracks.free_served hserve
      obtain ⟨htotal0, -, htotal⟩ := hL'.total_range T.heap
      simp only [Load.step, Int.toNat_natCast, hload] at htotal0 htotal
      rw [← U.total] at htotal0 htotal
      refine ⟨⟨{ u.driver with heap := mmFree u.driver.heap (u.driver.blocks i) },
          u.totalSize - old, u.maxTotalSize⟩, ?_, ⟨T, ?_, ?_, ?_, L', hL'⟩, hstart⟩
      · simp only [useOp, hslot, Option.bind_some, holdsize]
        rw [intResult_eq_some (by omega) (by omega)]
        rfl
      · exact fun j q t hj => U.sizes j q t (update_none_eq_some_iff.mp hj).2
      · simp [Load.step, U.total, hload]
      · exact U.peak

theorem useOps_eq {ids : List Nat} {ops : List TraceOp} (U : Uses u r l)
    (hops : OpsWellFormed numIds ids ops) (hrun : Replay.replay.run r ops = some r') :
    ∃ u', useOps numIds u ops = some (.ok u') ∧ Uses u' r' (ops.foldl Load.step l) ∧
      u'.driver.heap.memStartBrk = u.driver.heap.memStartBrk := by
  induction ops generalizing u r l ids with
  | nil =>
      cases hrun
      exact ⟨u, rfl, U, rfl⟩
  | cons op ops ih =>
      obtain ⟨m, hm, hrun'⟩ := Replay.replay.run_cons_some hrun
      obtain ⟨u', heq, U', hstart⟩ := useOp_eq U hops.1 hm
      obtain ⟨u'', heq', U'', hstart'⟩ := ih U' hops.2 hrun'
      exact ⟨u'', by rw [useOps, heq]; exact heq', U'', hstart'.trans hstart⟩

end Loop

/-- On a trace that next fit serves, `eval_mm_util` comes back without an error. Its
high water mark is that of the trace, whatever the allocator did; the heap is the
prologue and the blocks of next fit, and larger by at least 24 bytes. -/
theorem evalMmUtil_eq {t : Trace} {d : Driver} {r : Replay} (H : Region d.heap)
    (ht : t.WellFormed) (hrun : Replay.replay.run Replay.initial t.ops = some r) :
    ∃ d', evalMmUtil t d =
        some (.ok (d', ⟨t.highWater, firstOffset + span r.next.blocks⟩)) ∧
      Region d'.heap ∧ d'.heap.memStartBrk = d.heap.memStartBrk ∧
      0 ≤ t.highWater ∧ t.highWater + 24 ≤ (firstOffset + span r.next.blocks : Nat) := by
  obtain ⟨hzero, T, hstart⟩ := tracks_initial H d.blocks
  have U : Uses ⟨{ d with heap := (mmInit (memResetBrk d.heap)).1 }, 0, 0⟩ Replay.initial
      Load.initial :=
    ⟨T, fun i o s hi => by simp [Replay.initial] at hi, rfl, rfl, [], ledger_initial⟩
  obtain ⟨u, heq, U', hstart'⟩ := useOps_eq U ht hrun
  obtain ⟨L, hL⟩ := U'.ledger
  have hbrk := U'.tracks.heap.layout.brk
  have hsize : memHeapsize u.driver.heap = firstOffset + span r.next.blocks := by
    unfold memHeapsize
    omega
  refine ⟨u.driver, ?_, U'.tracks.heap.region, hstart'.trans hstart, ?_, ?_⟩
  · rw [evalMmUtil]
    dsimp only
    rw [if_neg (by omega), heq, Option.map_some]
    dsimp only
    rw [hsize, U'.peak]
    rfl
  · obtain ⟨h0, hle, -⟩ := hL.total_range U'.tracks.heap
    exact h0.trans hle
  · have hbound : t.highWater + 8 ≤ span r.next.blocks := hL.bound
    unfold firstOffset
    omega

end CompOrg.Malloc
