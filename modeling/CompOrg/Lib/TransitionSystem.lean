import Mathlib.Logic.Basic

/-! # Labelled transition systems with executable steps

A system is an initial predicate and a partial step function, so that a run over
a list of events can be evaluated as well as reasoned about. `Meets` says that
every step of a run is taken from a state in which a side condition holds; the
invariant rules below are stated under such a condition, and a condition that is
always true gives the unconditional rule. A simulation takes runs to runs of another
system, where an event may have no counterpart.
-/

namespace CompOrg

/-- The weights of the events together. -/
def total {ε : Type*} (weight : ε → Nat) : List ε → Nat
  | [] => 0
  | e :: es => weight e + total weight es

structure System (σ ε : Type*) where
  init : σ → Prop
  step : σ → ε → Option σ

namespace System

variable {σ ε : Type*} (S : System σ ε)

/-- Execute events in order; `none` when one of them is not enabled. -/
def run : σ → List ε → Option σ
  | s, [] => some s
  | s, e :: es => (S.step s e).bind fun t => run t es

/-- Each event is taken from a state that satisfies `ok` for it. -/
def Meets (ok : σ → ε → Prop) : σ → List ε → Prop
  | _, [] => True
  | s, e :: es => ok s e ∧ ∀ t, S.step s e = some t → Meets ok t es

@[simp] theorem run_nil (s : σ) : S.run s [] = some s := rfl

@[simp] theorem run_cons (s : σ) (e : ε) (es : List ε) :
    S.run s (e :: es) = (S.step s e).bind fun t => S.run t es := rfl

theorem run_cons_some {s t : σ} {e : ε} {es : List ε} (h : S.run s (e :: es) = some t) :
    ∃ m, S.step s e = some m ∧ S.run m es = some t := by
  simpa [Option.bind_eq_some_iff] using h

theorem run_append (s : σ) (es fs : List ε) :
    S.run s (es ++ fs) = (S.run s es).bind fun t => S.run t fs := by
  induction es generalizing s with
  | nil => rfl
  | cons e es ih =>
      cases h : S.step s e with
      | none => simp [h]
      | some t => simp [h, ih]

theorem meets_of_forall {ok : σ → ε → Prop} (h : ∀ s e, ok s e) (s : σ) (es : List ε) :
    S.Meets ok s es := by
  induction es generalizing s with
  | nil => trivial
  | cons e es ih => exact ⟨h s e, fun t _ => ih t⟩

/-- A condition on the events alone holds in every run over events that satisfy it. -/
theorem meets_of_mem {ok : ε → Prop} {es : List ε} (h : ∀ e ∈ es, ok e) (s : σ) :
    S.Meets (fun _ e => ok e) s es := by
  induction es generalizing s with
  | nil => trivial
  | cons e es ih =>
      exact ⟨h e List.mem_cons_self, fun t _ => ih (fun f hf => h f (List.mem_cons_of_mem e hf)) t⟩

theorem meets_cons_of_step {ok : σ → ε → Prop} {s t : σ} {e : ε} {es : List ε}
    (h : S.step s e = some t) : S.Meets ok s (e :: es) ↔ ok s e ∧ S.Meets ok t es := by
  simp [Meets, h]

theorem meets_cons_of_stuck {ok : σ → ε → Prop} {s : σ} {e : ε} {es : List ε}
    (h : S.step s e = none) : S.Meets ok s (e :: es) ↔ ok s e := by
  simp [Meets, h]

theorem meets_append {ok : σ → ε → Prop} {s t : σ} {es : List ε} (fs : List ε)
    (hr : S.run s es = some t) :
    S.Meets ok s (es ++ fs) ↔ S.Meets ok s es ∧ S.Meets ok t fs := by
  induction es generalizing s with
  | nil =>
      cases hr
      exact (and_iff_right trivial).symm
  | cons e es ih =>
      obtain ⟨m, hm, hr'⟩ := S.run_cons_some hr
      rw [List.cons_append, S.meets_cons_of_step hm, S.meets_cons_of_step hm, ih hr', and_assoc]

instance decidableMeets {ok : σ → ε → Prop} [∀ s e, Decidable (ok s e)] :
    ∀ (s : σ) (es : List ε), Decidable (S.Meets ok s es)
  | _, [] => isTrue trivial
  | s, e :: es =>
      match h : S.step s e with
      | none => decidable_of_iff _ (S.meets_cons_of_stuck h).symm
      | some t =>
          have : Decidable (S.Meets ok t es) := decidableMeets t es
          decidable_of_iff _ (S.meets_cons_of_step h).symm

/-! ## Invariants -/

/-- What one conditional step preserves, a conditional run preserves. -/
theorem run_invariant {Inv : σ → Prop} {ok : σ → ε → Prop}
    (hstep : ∀ s e t, Inv s → ok s e → S.step s e = some t → Inv t)
    {s t : σ} {es : List ε} (hs : Inv s) (hm : S.Meets ok s es) (hr : S.run s es = some t) :
    Inv t := by
  induction es generalizing s with
  | nil =>
      cases hr
      exact hs
  | cons e es ih =>
      obtain ⟨m, hm', hr'⟩ := S.run_cons_some hr
      exact ih (hstep s e m hs hm.1 hm') (hm.2 m hm') hr'

/-- What an invariant says about each step of a conditional run. -/
theorem meets_of_invariant {Inv : σ → Prop} {ok ok' : σ → ε → Prop}
    (hstep : ∀ s e t, Inv s → ok s e → S.step s e = some t → ok' s e ∧ Inv t)
    {s t : σ} {es : List ε} (hs : Inv s) (hm : S.Meets ok s es) (hr : S.run s es = some t) :
    S.Meets ok' s es := by
  induction es generalizing s with
  | nil => trivial
  | cons e es ih =>
      obtain ⟨m, hm', hr'⟩ := S.run_cons_some hr
      obtain ⟨hok, hi⟩ := hstep s e m hs hm.1 hm'
      exact (S.meets_cons_of_step hm').mpr ⟨hok, ih hi (hm.2 m hm') hr'⟩

/-- Where each conditional step lowers a rank by the weight of its event, the rank bounds
the weight of a run. -/
theorem run_ranked {Inv : σ → Nat → Prop} {ok : σ → ε → Prop} {weight : ε → Nat}
    (hstep : ∀ s e t k, Inv s k → ok s e → S.step s e = some t →
      ∃ j, Inv t j ∧ j + weight e ≤ k)
    {s t : σ} {es : List ε} {k : Nat} (hs : Inv s k) (hm : S.Meets ok s es)
    (hr : S.run s es = some t) : ∃ j, Inv t j ∧ j + total weight es ≤ k := by
  induction es generalizing s k with
  | nil =>
      cases hr
      exact ⟨k, hs, Nat.le_refl k⟩
  | cons e es ih =>
      obtain ⟨m, hm', hr'⟩ := S.run_cons_some hr
      obtain ⟨i, hi, hle⟩ := hstep s e m k hs hm.1 hm'
      obtain ⟨j, hj, hsum⟩ := ih hi (hm.2 m hm') hr'
      refine ⟨j, hj, ?_⟩
      rw [total]
      omega

/-- A conditional run never gets stuck when the condition enables the step and
the invariant survives it. -/
theorem run_total {Inv : σ → Prop} {ok : σ → ε → Prop}
    (hstep : ∀ s e, Inv s → ok s e → ∃ t, S.step s e = some t ∧ Inv t)
    {s : σ} {es : List ε} (hs : Inv s) (hm : S.Meets ok s es) :
    ∃ t, S.run s es = some t ∧ Inv t := by
  induction es generalizing s with
  | nil => exact ⟨s, rfl, hs⟩
  | cons e es ih =>
      obtain ⟨m, hm', hi⟩ := hstep s e hs hm.1
      obtain ⟨t, ht, hit⟩ := ih hi (hm.2 m hm')
      exact ⟨t, by simp [hm', ht], hit⟩

/-- `P` in every state of a run, the first one included. -/
def Always (P : σ → Prop) : σ → List ε → Prop
  | s, [] => P s
  | s, e :: es => P s ∧ ∀ t, S.step s e = some t → Always P t es

/-- Where one step keeps `P` exactly when it meets `ok`, the runs that keep `P` are
the runs that meet `ok`. -/
theorem always_iff_meets {Inv P : σ → Prop} {valid ok : σ → ε → Prop}
    (hstep : ∀ s e, Inv s → P s → valid s e →
      ∃ t, S.step s e = some t ∧ Inv t ∧ (P t ↔ ok s e))
    {s : σ} {es : List ε} (hs : Inv s) (hp : P s) (hv : S.Meets valid s es) :
    S.Always P s es ↔ S.Meets ok s es := by
  induction es generalizing s with
  | nil => exact iff_of_true hp trivial
  | cons e es ih =>
      obtain ⟨t, ht, hi, hok⟩ := hstep s e hs hp hv.1
      rw [S.meets_cons_of_step ht, ← hok]
      constructor
      · rintro ⟨-, h⟩
        have halways := h t ht
        have hpt : P t := by
          cases es with
          | nil => exact halways
          | cons f fs => exact halways.1
        exact ⟨hpt, (ih hi hpt (hv.2 t ht)).mp halways⟩
      · rintro ⟨hpt, h⟩
        refine ⟨hp, fun u hu => ?_⟩
        obtain rfl := Option.some.inj (ht.symm.trans hu)
        exact (ih hi hpt (hv.2 t ht)).mpr h

/-- Where a step that misses `ok` leads into states that no step leaves, a run that ends
outside of them has met `ok` throughout. -/
theorem meets_of_run {Inv Lost : σ → Prop} {ok : σ → ε → Prop}
    (hinv : ∀ s e t, Inv s → S.step s e = some t → Inv t)
    (hlost : ∀ s e t, Inv s → Lost s → S.step s e = some t → Lost t)
    (hmiss : ∀ s e t, Inv s → ¬ ok s e → S.step s e = some t → Lost t)
    {s t : σ} {es : List ε} (hs : Inv s) (hr : S.run s es = some t) (ht : ¬ Lost t) :
    S.Meets ok s es := by
  induction es generalizing s with
  | nil => trivial
  | cons e es ih =>
      obtain ⟨m, hm, hr'⟩ := S.run_cons_some hr
      have hkeep : ∀ s e t, (Inv s ∧ Lost s) → True → S.step s e = some t → Inv t ∧ Lost t :=
        fun s e t h _ hst => ⟨hinv s e t h.1 hst, hlost s e t h.1 h.2 hst⟩
      have hok : ok s e := Classical.byContradiction fun hmissed => by
        have hm' : Inv m ∧ Lost m := ⟨hinv s e m hs hm, hmiss s e m hs hmissed hm⟩
        exact ht (S.run_invariant hkeep hm' (S.meets_of_forall (fun _ _ => trivial) m es) hr').2
      rw [S.meets_cons_of_step hm]
      exact ⟨hok, ih (hinv s e m hs hm) hr'⟩

/-! ## Simulation -/

/-- On states that satisfy `Inv`, an event is an event of `T` on what `f` sees of the
state, or changes nothing that `f` sees. -/
def Simulates {τ δ : Type*} (T : System τ δ) (f : σ → τ) (g : ε → Option δ) (Inv : σ → Prop) :
    Prop :=
  ∀ s e t, Inv s → S.step s e = some t →
    match g e with
    | some d => T.step (f s) d = some (f t)
    | none => f t = f s

variable {S} in
theorem Simulates.run {τ δ : Type*} {T : System τ δ} {f : σ → τ} {g : ε → Option δ}
    {Inv : σ → Prop} (hsim : S.Simulates T f g Inv)
    (hinv : ∀ s e t, Inv s → S.step s e = some t → Inv t) {s t : σ} {es : List ε} (hs : Inv s)
    (hr : S.run s es = some t) : T.run (f s) (es.filterMap g) = some (f t) := by
  induction es generalizing s with
  | nil =>
      cases hr
      rfl
  | cons e es ih =>
      obtain ⟨m, hm, hr'⟩ := S.run_cons_some hr
      have hstep := hsim s e m hs hm
      have hrest := ih (hinv s e m hs hm) hr'
      cases hg : g e with
      | none =>
          rw [hg] at hstep
          rw [List.filterMap_cons_none hg, ← hstep]
          exact hrest
      | some d =>
          rw [hg] at hstep
          rw [List.filterMap_cons_some hg, run_cons, hstep]
          exact hrest

/-- A step for an event, and none for no event. -/
def stepOrStay (s : σ) : Option ε → Option σ
  | some e => S.step s e
  | none => some s

/-- The same for runs whose steps meet a condition, which the invariant may need. -/
theorem run_simulates {τ δ : Type*} {T : System τ δ} {f : σ → τ} {g : ε → Option δ}
    {Inv : σ → Prop} {ok : σ → ε → Prop}
    (hstep : ∀ s e t, Inv s → ok s e → S.step s e = some t →
      Inv t ∧ T.stepOrStay (f s) (g e) = some (f t))
    {s t : σ} {es : List ε} (hs : Inv s) (hm : S.Meets ok s es) (hr : S.run s es = some t) :
    T.run (f s) (es.filterMap g) = some (f t) := by
  induction es generalizing s with
  | nil =>
      cases hr
      rfl
  | cons e es ih =>
      obtain ⟨m, hm', hr'⟩ := S.run_cons_some hr
      obtain ⟨hi, hsim⟩ := hstep s e m hs hm.1 hm'
      have hrest := ih hi (hm.2 m hm') hr'
      cases hg : g e with
      | none =>
          rw [hg] at hsim
          rw [List.filterMap_cons_none hg, Option.some.inj hsim]
          exact hrest
      | some d =>
          rw [hg] at hsim
          rw [List.filterMap_cons_some hg, run_cons, show T.step (f s) d = _ from hsim]
          exact hrest

/-- The last state of a run that goes through. -/
def after (s : σ) (es : List ε) : σ := (S.run s es).getD s

theorem run_eq_after {s : σ} {es : List ε} (h : (S.run s es).isSome = true) :
    S.run s es = some (S.after s es) := by
  obtain ⟨t, ht⟩ := Option.isSome_iff_exists.mp h
  rw [after, ht]
  rfl

/-- Reached from an initial state by a run whose steps all meet `ok`. -/
def ReachableWhere (ok : σ → ε → Prop) (t : σ) : Prop :=
  ∃ s es, S.init s ∧ S.Meets ok s es ∧ S.run s es = some t

/-- Reached from an initial state by any run. -/
def Reachable (t : σ) : Prop := ∃ s es, S.init s ∧ S.run s es = some t

theorem ReachableWhere.reachable {ok : σ → ε → Prop} {t : σ} (h : S.ReachableWhere ok t) :
    S.Reachable t := by
  obtain ⟨s, es, hi, _, hr⟩ := h
  exact ⟨s, es, hi, hr⟩

variable {S} in
theorem Meets.imp {ok ok' : σ → ε → Prop} (himp : ∀ s e, ok s e → ok' s e) {s : σ} {es : List ε}
    (h : S.Meets ok s es) : S.Meets ok' s es := by
  induction es generalizing s with
  | nil => trivial
  | cons e es ih => exact ⟨himp s e h.1, fun t ht => ih (h.2 t ht)⟩

variable {S} in
theorem ReachableWhere.imp {ok ok' : σ → ε → Prop} (himp : ∀ s e, ok s e → ok' s e) {t : σ}
    (h : S.ReachableWhere ok t) : S.ReachableWhere ok' t := by
  obtain ⟨s, es, hi, hm, hr⟩ := h
  exact ⟨s, es, hi, hm.imp himp, hr⟩

theorem reachableWhere_invariant {Inv : σ → Prop} {ok : σ → ε → Prop}
    (hinit : ∀ s, S.init s → Inv s)
    (hstep : ∀ s e t, Inv s → ok s e → S.step s e = some t → Inv t)
    {t : σ} (h : S.ReachableWhere ok t) : Inv t := by
  obtain ⟨s, es, hi, hm, hr⟩ := h
  exact S.run_invariant hstep (hinit s hi) hm hr

theorem reachable_invariant {Inv : σ → Prop} (hinit : ∀ s, S.init s → Inv s)
    (hstep : ∀ s e t, Inv s → S.step s e = some t → Inv t)
    {t : σ} (h : S.Reachable t) : Inv t := by
  obtain ⟨s, es, hi, hr⟩ := h
  have hm : S.Meets (fun _ _ => True) s es := S.meets_of_forall (fun _ _ => trivial) s es
  exact S.run_invariant (fun s e t hs _ => hstep s e t hs) (hinit s hi) hm hr

end System

end CompOrg
