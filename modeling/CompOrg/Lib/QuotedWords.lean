import Mathlib.Data.List.Basic

/-! # Words with quotes

The words of a list under a separator and a quote. A word that begins with the quote
goes on to the next quote, whatever is in between, and any other word goes on to the
next separator or to the end. What follows a quote that is never closed is no word.
-/

namespace CompOrg.QuotedWords

variable {α : Type*}

structure Word (α : Type*) where
  quoted : Bool
  text : List α
  deriving DecidableEq

section Grammar

variable (sep quote : α)

/-- The words `ws` are those of `s`, one after the other. -/
inductive Splits : List α → List (Word α) → Prop
  | nil : Splits [] []
  | skip {s ws} (h : Splits s ws) : Splits (sep :: s) ws
  | unclosed {s} (hs : quote ∉ s) : Splits (quote :: s) []
  | quoted {text s ws} (htext : quote ∉ text) (h : Splits s ws) :
      Splits (quote :: (text ++ quote :: s)) (⟨true, text⟩ :: ws)
  | last {c text} (hsep : sep ∉ c :: text) (hc : c ≠ quote) :
      Splits (c :: text) [⟨false, c :: text⟩]
  | bare {c text s ws} (hsep : sep ∉ c :: text) (hc : c ≠ quote) (h : Splits s ws) :
      Splits (c :: (text ++ sep :: s)) (⟨false, c :: text⟩ :: ws)

variable {sep quote} {s : List α} {ws : List (Word α)}

theorem Splits.append_sep (hne : quote ≠ sep) (h : Splits sep quote s ws) :
    Splits sep quote (s ++ [sep]) ws := by
  induction h with
  | nil => exact Splits.nil.skip
  | skip _ ih => exact ih.skip
  | unclosed hs => exact .unclosed (by simpa [hs] using hne)
  | quoted htext _ ih => simpa using Splits.quoted htext ih
  | last hsep hc => exact .bare hsep hc .nil
  | bare hsep hc _ ih => simpa using Splits.bare hsep hc ih

theorem Splits.replicate_append (n : Nat) (h : Splits sep quote s ws) :
    Splits sep quote (List.replicate n sep ++ s) ws := by
  induction n with
  | zero => exact h
  | succ n ih => exact ih.skip

theorem Splits.append_replicate (hne : quote ≠ sep) (n : Nat) (h : Splits sep quote s ws) :
    Splits sep quote (s ++ List.replicate n sep) ws := by
  induction n with
  | zero => simpa using h
  | succ n ih =>
      rw [List.replicate_succ', ← List.append_assoc]
      exact ih.append_sep hne

end Grammar

/-! ## Finding the words -/

/-- Where a reader from left to right is, with what it has of a word. -/
inductive Mode (α : Type*)
  | between
  | bare (text : List α)
  | quoted (text : List α)

section Scan

variable [DecidableEq α] (sep quote : α)

def scan : Mode α → List α → List (Word α)
  | .between, [] => []
  | .bare text, [] => [⟨false, text⟩]
  | .quoted _, [] => []
  | .between, c :: cs =>
      if c = sep then scan .between cs
      else if c = quote then scan (.quoted []) cs
      else scan (.bare [c]) cs
  | .bare text, c :: cs =>
      if c = sep then ⟨false, text⟩ :: scan .between cs else scan (.bare (text ++ [c])) cs
  | .quoted text, c :: cs =>
      if c = quote then ⟨true, text⟩ :: scan .between cs else scan (.quoted (text ++ [c])) cs

def words (s : List α) : List (Word α) := scan sep quote .between s

end Scan

section Words

variable [DecidableEq α] {sep quote c : α} {s text acc : List α} {ws : List (Word α)}

@[simp] theorem scan_between : scan sep quote .between s = words sep quote s := rfl

@[simp] theorem words_nil : words sep quote [] = [] := rfl

/-- The first element says how the word goes on. -/
theorem words_cons :
    words sep quote (c :: s) =
      if c = sep then words sep quote s
      else if c = quote then scan sep quote (.quoted []) s
      else scan sep quote (.bare [c]) s := rfl

@[simp] theorem words_sep : words sep quote (sep :: s) = words sep quote s := by
  rw [words_cons, if_pos rfl]

/-- A bare word ends at the first separator. -/
theorem scan_bare (htext : sep ∉ text) :
    scan sep quote (.bare acc) (text ++ sep :: s) = ⟨false, acc ++ text⟩ :: words sep quote s := by
  induction text generalizing acc with
  | nil => simp [scan]
  | cons c text ih =>
      rw [List.mem_cons, not_or] at htext
      simp [scan, Ne.symm htext.1, ih htext.2]

theorem scan_bare_end (htext : sep ∉ text) :
    scan sep quote (.bare acc) text = [⟨false, acc ++ text⟩] := by
  induction text generalizing acc with
  | nil => simp [scan]
  | cons c text ih =>
      rw [List.mem_cons, not_or] at htext
      simp [scan, Ne.symm htext.1, ih htext.2]

/-- A quoted word ends at the first quote. -/
theorem scan_quoted (htext : quote ∉ text) :
    scan sep quote (.quoted acc) (text ++ quote :: s) =
      ⟨true, acc ++ text⟩ :: words sep quote s := by
  induction text generalizing acc with
  | nil => simp [scan]
  | cons c text ih =>
      rw [List.mem_cons, not_or] at htext
      simp [scan, Ne.symm htext.1, ih htext.2]

theorem scan_quoted_end (htext : quote ∉ text) : scan sep quote (.quoted acc) text = [] := by
  induction text generalizing acc with
  | nil => simp [scan]
  | cons c text ih =>
      rw [List.mem_cons, not_or] at htext
      simp [scan, Ne.symm htext.1, ih htext.2]

/-! ## The words are those of the grammar -/

/-- One statement for each mode; the element that ends a mode leads back to the first. -/
theorem splits_scan (s : List α) :
    Splits sep quote s (words sep quote s) ∧
      (∀ c text, sep ∉ c :: text → c ≠ quote →
        Splits sep quote (c :: (text ++ s)) (scan sep quote (.bare (c :: text)) s)) ∧
      (∀ text, quote ∉ text →
        Splits sep quote (quote :: (text ++ s)) (scan sep quote (.quoted text) s)) := by
  induction s with
  | nil =>
      refine ⟨.nil, fun c text hsep hc => ?_, fun text htext => ?_⟩
      · simpa [scan] using Splits.last hsep hc
      · simpa [scan] using Splits.unclosed htext
  | cons d s ih =>
      obtain ⟨hbetween, hbare, hquoted⟩ := ih
      refine ⟨?_, fun c text hsep hc => ?_, fun text htext => ?_⟩
      · by_cases hd : d = sep
        · subst hd
          simpa using hbetween.skip
        · by_cases hq : d = quote
          · subst hq
            simpa [words_cons, hd] using hquoted [] (by simp)
          · simpa [words_cons, hd, hq] using hbare d [] (by simpa using Ne.symm hd) hq
      · by_cases hd : d = sep
        · subst hd
          simpa [scan] using Splits.bare hsep hc hbetween
        · have hmore : sep ∉ c :: (text ++ [d]) := by
            simp only [List.mem_cons, List.mem_append, List.not_mem_nil, or_false, not_or] at hsep ⊢
            exact ⟨hsep.1, hsep.2, Ne.symm hd⟩
          simpa [scan, hd] using hbare c (text ++ [d]) hmore hc
      · by_cases hd : d = quote
        · subst hd
          simpa [scan] using Splits.quoted htext hbetween
        · have hmore : quote ∉ text ++ [d] := by simpa [htext] using Ne.symm hd
          simpa [scan, hd] using hquoted (text ++ [d]) hmore

theorem splits_words (s : List α) : Splits sep quote s (words sep quote s) := (splits_scan s).1

/-- There is one way to split a list. -/
theorem Splits.words_eq (hne : quote ≠ sep) (h : Splits sep quote s ws) :
    words sep quote s = ws := by
  induction h with
  | nil => rfl
  | skip _ ih => rw [words_sep, ih]
  | unclosed hs =>
      rw [words_cons, if_neg hne, if_pos rfl]
      exact scan_quoted_end hs
  | quoted htext _ ih =>
      rw [words_cons, if_neg hne, if_pos rfl, scan_quoted htext, ih]
      rfl
  | last hsep hc =>
      rw [List.mem_cons, not_or] at hsep
      rw [words_cons, if_neg (Ne.symm hsep.1), if_neg hc]
      exact scan_bare_end hsep.2
  | bare hsep hc _ ih =>
      rw [List.mem_cons, not_or] at hsep
      rw [words_cons, if_neg (Ne.symm hsep.1), if_neg hc, scan_bare hsep.2, ih]
      rfl

theorem words_append_sep (hne : quote ≠ sep) (s : List α) :
    words sep quote (s ++ [sep]) = words sep quote s :=
  ((splits_words s).append_sep hne).words_eq hne

end Words

end CompOrg.QuotedWords
