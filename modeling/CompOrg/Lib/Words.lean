import Mathlib.Data.List.Infix
import Mathlib.Data.List.TakeWhile

/-! # Words and cuts

The words of a list are its maximal runs of non-separators. A cut between two
parts of a list is inside a word when it has a non-separator on either side:
these cuts, and no others, change what reading the parts one by one yields.
-/

namespace CompOrg.Words

variable {α : Type*} (sep : α → Bool)

def words (xs : List α) : List (List α) := (xs.splitOnP sep).filter fun w => !w.isEmpty

/-- The cut between `xs` and `ys` has a non-separator on both sides. -/
def Inside (xs ys : List α) : Prop :=
  ∃ a ∈ xs.getLast?, ∃ b ∈ ys.head?, sep a = false ∧ sep b = false

/-- Some cut between consecutive pieces is inside a word. -/
def SplitsWord (pieces : List (List α)) : Prop :=
  ∃ front back, pieces = front ++ back ∧ Inside sep front.flatten back.flatten

variable {sep} {a b : α} {w xs ys zs : List α} {p : List α} {pieces : List (List α)}

/-! ## Reading one element at a time -/

@[simp] theorem words_nil : words sep [] = [] := rfl

theorem words_cons_sep (ha : sep a = true) : words sep (a :: xs) = words sep xs := by
  simp [words, List.splitOnP_cons_eq_if_modifyHead, ha]

theorem words_singleton (ha : sep a = false) : words sep [a] = [[a]] := by
  simp [words, List.splitOnP_cons_eq_if_modifyHead, ha]

theorem words_cons_cons_sep (ha : sep a = false) (hb : sep b = true) :
    words sep (a :: b :: xs) = [a] :: words sep xs := by
  simp [words, List.splitOnP_cons_eq_if_modifyHead, ha, hb]

theorem words_ne_nil (xs : List α) (ha : sep a = false) : words sep (a :: xs) ≠ [] := by
  obtain ⟨w, ws, hw⟩ := List.exists_cons_of_ne_nil (List.splitOnP_ne_nil sep xs)
  simp [words, List.splitOnP_cons_eq_if_modifyHead, ha, hw]

/-- Two neighbouring non-separators are in one word. -/
theorem words_cons_cons (ha : sep a = false) (hb : sep b = false) :
    words sep (a :: b :: xs) = (words sep (b :: xs)).modifyHead (a :: ·) := by
  obtain ⟨w, ws, hw⟩ := List.exists_cons_of_ne_nil (List.splitOnP_ne_nil sep xs)
  simp [words, List.splitOnP_cons_eq_if_modifyHead, ha, hb, hw]

theorem words_cons (ha : sep a = false) :
    words sep (a :: xs) =
      (a :: xs).takeWhile (fun b => !sep b) :: words sep ((a :: xs).dropWhile fun b => !sep b) := by
  induction xs generalizing a with
  | nil => simp [words_singleton ha, ha]
  | cons b xs ih =>
      cases hb : sep b with
      | false =>
          rw [words_cons_cons ha hb, ih hb]
          simp [ha, hb]
      | true =>
          rw [words_cons_cons_sep ha hb]
          simp [ha, hb, words_cons_sep]

theorem words_word_sep (hw : w ≠ []) (hall : ∀ a ∈ w, sep a = false) (hb : sep b = true) :
    words sep (w ++ b :: xs) = w :: words sep xs := by
  obtain ⟨a, as, rfl⟩ := List.exists_cons_of_ne_nil hw
  have hkeep : ∀ c ∈ a :: as, (!sep c) = true := fun c hc => by rw [hall c hc]; rfl
  rw [List.cons_append, words_cons (hall a List.mem_cons_self), ← List.cons_append,
    List.takeWhile_append_of_pos hkeep, List.dropWhile_append_of_pos hkeep]
  simp [hb, words_cons_sep]

/-- Words that a separator ends one by one. -/
theorem words_lines {ws : List (List α)} (hws : ∀ w ∈ ws, w ≠ [] ∧ ∀ a ∈ w, sep a = false)
    (hb : sep b = true) : words sep (ws.flatMap fun w => w ++ [b]) = ws := by
  induction ws with
  | nil => rfl
  | cons w ws ih =>
      obtain ⟨⟨hw, hall⟩, hws⟩ := List.forall_mem_cons.mp hws
      rw [List.flatMap_cons, List.append_assoc, List.singleton_append, words_word_sep hw hall hb,
        ih hws]

/-! ## Cutting in two -/

@[simp] theorem not_inside_nil_left : ¬ Inside sep [] ys := by simp [Inside]

theorem inside_singleton : Inside sep [a] (b :: ys) ↔ sep a = false ∧ sep b = false := by
  simp [Inside]

theorem inside_cons_cons : Inside sep (a :: b :: xs) ys ↔ Inside sep (b :: xs) ys := by
  simp [Inside]

theorem Inside.append_left (h : Inside sep xs ys) : Inside sep (zs ++ xs) ys := by
  obtain ⟨a, ha, hb⟩ := h
  exact ⟨a, List.mem_getLast?_append_of_mem_getLast? ha, hb⟩

/-- Any other cut keeps every word whole. -/
theorem words_append_of_not_inside (h : ¬ Inside sep xs ys) :
    words sep (xs ++ ys) = words sep xs ++ words sep ys := by
  induction xs with
  | nil => rfl
  | cons a xs ih =>
      cases ha : sep a with
      | true =>
          rw [List.cons_append, words_cons_sep ha, words_cons_sep ha]
          apply ih
          intro hin
          cases xs with
          | nil => exact not_inside_nil_left hin
          | cons b xs => exact h (inside_cons_cons.mpr hin)
      | false =>
          cases xs with
          | nil =>
              cases ys with
              | nil => simp
              | cons b ys =>
                  rw [inside_singleton, not_and, Bool.not_eq_false] at h
                  rw [List.singleton_append, words_cons_cons_sep ha (h ha), words_singleton ha,
                    words_cons_sep (h ha), List.singleton_append]
          | cons b xs =>
              have hxs := ih fun hin => h (inside_cons_cons.mpr hin)
              cases hb : sep b with
              | true =>
                  rw [List.cons_append, words_cons_sep hb, words_cons_sep hb] at hxs
                  rw [List.cons_append, List.cons_append, words_cons_cons_sep ha hb,
                    words_cons_cons_sep ha hb, hxs, List.cons_append]
              | false =>
                  obtain ⟨w, ws, hw⟩ := List.exists_cons_of_ne_nil (words_ne_nil xs hb)
                  rw [List.cons_append, hw] at hxs
                  rw [List.cons_append, List.cons_append, words_cons_cons ha hb,
                    words_cons_cons ha hb, hxs, hw, List.cons_append, List.modifyHead_cons,
                    List.modifyHead_cons, List.cons_append]

/-- A cut inside a word cuts this word in two. -/
theorem words_append_of_inside (h : Inside sep xs ys) :
    ∃ us u v vs, words sep xs = us ++ [u] ∧ words sep ys = v :: vs ∧
      words sep (xs ++ ys) = us ++ (u ++ v) :: vs := by
  induction xs with
  | nil => exact (not_inside_nil_left h).elim
  | cons a xs ih =>
      cases xs with
      | nil =>
          obtain ⟨b, hbys, hab⟩ : ∃ b, ys.head? = some b ∧ sep a = false ∧ sep b = false := by
            simpa [Inside] using h
          obtain ⟨ys, rfl⟩ := List.head?_eq_some_iff.mp hbys
          obtain ⟨v, vs, hv⟩ := List.exists_cons_of_ne_nil (words_ne_nil ys hab.2)
          refine ⟨[], [a], v, vs, words_singleton hab.1, hv, ?_⟩
          rw [List.singleton_append, words_cons_cons hab.1 hab.2, hv]
          rfl
      | cons b xs =>
          obtain ⟨us, u, v, vs, hxs, hys, happ⟩ := ih (inside_cons_cons.mp h)
          rw [List.cons_append] at happ
          rw [List.cons_append, List.cons_append]
          cases ha : sep a with
          | true =>
              rw [words_cons_sep ha, words_cons_sep ha]
              exact ⟨us, u, v, vs, hxs, hys, happ⟩
          | false =>
              cases hb : sep b with
              | true =>
                  rw [words_cons_sep hb] at hxs happ
                  rw [words_cons_cons_sep ha hb, words_cons_cons_sep ha hb, hxs, happ]
                  exact ⟨[a] :: us, u, v, vs, rfl, hys, rfl⟩
              | false =>
                  rw [words_cons_cons ha hb, words_cons_cons ha hb, hxs, happ]
                  cases us with
                  | nil => exact ⟨[], a :: u, v, vs, rfl, hys, rfl⟩
                  | cons w us => exact ⟨(a :: w) :: us, u, v, vs, rfl, hys, rfl⟩

/-! ## Reading piece by piece -/

@[simp] theorem not_splitsWord_nil : ¬ SplitsWord sep ([] : List (List α)) := by
  rintro ⟨front, back, happ, hin⟩
  obtain ⟨rfl, rfl⟩ := List.append_eq_nil_iff.mp happ.symm
  exact not_inside_nil_left hin

theorem splitsWord_cons :
    SplitsWord sep (p :: pieces) ↔ Inside sep p pieces.flatten ∨ SplitsWord sep pieces := by
  constructor
  · rintro ⟨front, back, happ, hin⟩
    cases front with
    | nil => exact (not_inside_nil_left hin).elim
    | cons q front =>
        obtain ⟨rfl, rfl⟩ := List.cons.inj happ
        by_cases hfront : front.flatten = []
        · left
          rw [List.flatten_cons, hfront, List.append_nil] at hin
          simpa [hfront] using hin
        · right
          obtain ⟨a, ha, hb⟩ := hin
          rw [List.flatten_cons, List.getLast?_append_of_ne_nil _ hfront] at ha
          exact ⟨front, back, rfl, a, ha, hb⟩
  · rintro (hin | ⟨front, back, rfl, hin⟩)
    · exact ⟨[p], pieces, rfl, by simpa using hin⟩
    · exact ⟨p :: front, back, rfl, hin.append_left⟩

theorem not_splitsWord_of_ends (h : ∀ p ∈ pieces, ∀ a ∈ p.getLast?, sep a = true) :
    ¬ SplitsWord sep pieces := by
  induction pieces with
  | nil => exact not_splitsWord_nil
  | cons p pieces ih =>
      rw [splitsWord_cons, not_or]
      constructor
      · rintro ⟨a, ha, _, -, hsep, -⟩
        rw [h p List.mem_cons_self a ha] at hsep
        cases hsep
      · exact ih fun q hq => h q (List.mem_cons_of_mem _ hq)

theorem flatMap_words (h : ¬ SplitsWord sep pieces) :
    pieces.flatMap (words sep) = words sep pieces.flatten := by
  induction pieces with
  | nil => rfl
  | cons p ps ih =>
      rw [splitsWord_cons, not_or] at h
      rw [List.flatMap_cons, List.flatten_cons, words_append_of_not_inside h.1, ih h.2]

theorem length_words_append_le :
    (words sep (xs ++ ys)).length ≤ (words sep xs).length + (words sep ys).length := by
  by_cases h : Inside sep xs ys
  · obtain ⟨us, u, v, vs, hxs, hys, happ⟩ := words_append_of_inside h
    rw [hxs, hys, happ]
    simp only [List.length_append, List.length_cons, List.length_nil]
    omega
  · rw [words_append_of_not_inside h, List.length_append]

theorem length_words_flatten_le (sep : α → Bool) (pieces : List (List α)) :
    (words sep pieces.flatten).length ≤ (pieces.flatMap (words sep)).length := by
  induction pieces with
  | nil => rfl
  | cons p ps ih =>
      rw [List.flatMap_cons, List.flatten_cons, List.length_append]
      exact length_words_append_le.trans (Nat.add_le_add_left ih _)

/-- A cut inside a word is not made up for by the other pieces. -/
theorem length_words_flatten_lt (h : SplitsWord sep pieces) :
    (words sep pieces.flatten).length < (pieces.flatMap (words sep)).length := by
  induction pieces with
  | nil => exact (not_splitsWord_nil h).elim
  | cons p ps ih =>
      rw [List.flatMap_cons, List.flatten_cons, List.length_append]
      rcases splitsWord_cons.mp h with hin | hps
      · obtain ⟨us, u, v, vs, hp, hvs, happ⟩ := words_append_of_inside hin
        have hle := length_words_flatten_le sep ps
        rw [hvs] at hle
        rw [hp, happ]
        simp only [List.length_append, List.length_cons, List.length_nil] at hle ⊢
        omega
      · exact length_words_append_le.trans_lt (Nat.add_lt_add_left (ih hps) _)

/-! ## Runs -/

/-- Induction over a list as a reader of words takes it apart. -/
theorem word_induction (sep : α → Bool) {P : List α → Prop} (nil : P [])
    (skip : ∀ a xs, sep a = true → P xs → P (a :: xs))
    (word : ∀ a xs, sep a = false → P ((a :: xs).dropWhile fun b => !sep b) → P (a :: xs))
    (xs : List α) : P xs := by
  generalize hn : xs.length = n
  induction n using Nat.strong_induction_on generalizing xs with
  | h n ih =>
      cases xs with
      | nil => exact nil
      | cons a xs =>
          cases ha : sep a with
          | true => exact skip a xs ha (ih xs.length (by simp [← hn]) xs rfl)
          | false =>
              refine word a xs ha (ih _ ?_ _ rfl)
              have hle := (List.dropWhile_sublist (l := xs) fun b => !sep b).length_le
              simp only [List.dropWhile_cons, ha, Bool.not_false, if_true, ← hn, List.length_cons]
              omega

theorem words_eq_nil_iff : words sep xs = [] ↔ ∀ a ∈ xs, sep a = true := by
  induction xs using word_induction sep with
  | nil => simp
  | skip a xs ha ih => rw [words_cons_sep ha, ih, List.forall_mem_cons, and_iff_right ha]
  | word a xs ha ih =>
      refine iff_of_false (words_ne_nil xs ha) fun h => ?_
      rw [h a List.mem_cons_self] at ha
      cases ha

theorem length_words_le (xs : List α) : (words sep xs).length ≤ xs.length := by
  induction xs using word_induction sep with
  | nil => exact Nat.le_refl _
  | skip a xs ha ih =>
      rw [words_cons_sep ha, List.length_cons]
      omega
  | word a xs ha ih =>
      have hle := (List.dropWhile_sublist (l := xs) fun b => !sep b).length_le
      rw [List.dropWhile_cons_of_pos (by simp [ha])] at ih
      rw [words_cons ha, List.dropWhile_cons_of_pos (by simp [ha]), List.length_cons,
        List.length_cons]
      omega

/-- The first word, with the separators in front of it and what follows. -/
theorem exists_of_words_cons {w : List α} {ws : List (List α)} (h : words sep xs = w :: ws) :
    ∃ front rest, xs = front ++ (w ++ rest) ∧ (∀ a ∈ front, sep a = true) ∧ w ≠ [] ∧
      (∀ a ∈ w, sep a = false) ∧ (∀ a ∈ rest.head?, sep a = true) ∧ words sep rest = ws := by
  induction xs using word_induction sep with
  | nil => cases h
  | skip a xs ha ih =>
      rw [words_cons_sep ha] at h
      obtain ⟨front, rest, rfl, hfront, hrest⟩ := ih h
      exact ⟨a :: front, rest, rfl, List.forall_mem_cons.mpr ⟨ha, hfront⟩, hrest⟩
  | word a xs ha ih =>
      rw [words_cons ha] at h
      obtain ⟨rfl, rfl⟩ := List.cons.inj h
      refine ⟨[], _, List.takeWhile_append_dropWhile.symm, by simp, by simp [ha], ?_, ?_, rfl⟩
      · intro b hb
        simpa using List.mem_takeWhile_imp hb
      · intro b hb
        have hhead := List.head?_dropWhile_not (fun b => !sep b) (a :: xs)
        rw [Option.mem_def.mp hb] at hhead
        simpa using hhead

theorem isInfix_of_mem_words (hw : w ∈ words sep xs) :
    w ≠ [] ∧ (∀ a ∈ w, sep a = false) ∧ w <:+: xs := by
  induction xs using word_induction sep with
  | nil => cases hw
  | skip a xs ha ih =>
      rw [words_cons_sep ha] at hw
      obtain ⟨hne, hsep, hpart⟩ := ih hw
      exact ⟨hne, hsep, hpart.trans (List.suffix_cons a xs).isInfix⟩
  | word a xs ha ih =>
      rw [words_cons ha, List.mem_cons] at hw
      rcases hw with rfl | hw
      · refine ⟨by simp [ha], fun b hb => ?_, (List.takeWhile_prefix _).isInfix⟩
        simpa using List.mem_takeWhile_imp hb
      · obtain ⟨hne, hsep, hpart⟩ := ih hw
        exact ⟨hne, hsep, hpart.trans (List.dropWhile_suffix _).isInfix⟩

theorem exists_word_cons (hw : w ∈ words sep xs) : ∃ v ∈ words sep (a :: xs), w <:+: v := by
  cases ha : sep a with
  | true => exact ⟨w, by rwa [words_cons_sep ha], List.infix_rfl⟩
  | false =>
      cases xs with
      | nil => cases hw
      | cons b xs =>
          cases hb : sep b with
          | true =>
              rw [words_cons_sep hb] at hw
              exact ⟨w, by rw [words_cons_cons_sep ha hb]; exact List.mem_cons_of_mem _ hw,
                List.infix_rfl⟩
          | false =>
              obtain ⟨u, us, hu⟩ := List.exists_cons_of_ne_nil (words_ne_nil xs hb)
              rw [words_cons_cons ha hb, hu, List.modifyHead_cons]
              rw [hu, List.mem_cons] at hw
              rcases hw with rfl | hw
              · exact ⟨a :: w, List.mem_cons_self, (List.suffix_cons a w).isInfix⟩
              · exact ⟨w, List.mem_cons_of_mem _ hw, List.infix_rfl⟩

/-- Every run of non-separators is part of a word. -/
theorem exists_word_of_isInfix (hne : w ≠ []) (hsep : ∀ a ∈ w, sep a = false) (hw : w <:+: xs) :
    ∃ v ∈ words sep xs, w <:+: v := by
  obtain ⟨front, back, rfl⟩ := hw
  induction front with
  | nil =>
      obtain ⟨a, w, rfl⟩ := List.exists_cons_of_ne_nil hne
      have hall : ∀ b ∈ a :: w, (!sep b) = true := fun b hb => by rw [hsep b hb]; rfl
      rw [List.nil_append, List.cons_append, words_cons (hsep a List.mem_cons_self),
        ← List.cons_append, List.takeWhile_append_of_pos hall]
      exact ⟨_, List.mem_cons_self, (List.prefix_append _ _).isInfix⟩
  | cons b front ih =>
      obtain ⟨v, hv, hwv⟩ := ih
      obtain ⟨u, hu, hvu⟩ := exists_word_cons (a := b) hv
      exact ⟨u, hu, hwv.trans hvu⟩

/-- The words of a piece are no longer than those of the whole. -/
theorem exists_word_of_mem_flatten (hp : p ∈ pieces) (hw : w ∈ words sep p) :
    ∃ v ∈ words sep pieces.flatten, w <:+: v := by
  obtain ⟨hne, hsep, hpart⟩ := isInfix_of_mem_words hw
  exact exists_word_of_isInfix hne hsep (hpart.trans (List.infix_of_mem_flatten hp))

end CompOrg.Words
