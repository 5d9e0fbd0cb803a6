import Mathlib.Data.List.Basic
import Mathlib.Data.List.TakeWhile
import GameExport.Text.Blank

/-! # What is left of a trimmed text

Blanks are taken away at both ends until something else comes, so the text that is left is the only
one that the whole text can be with blanks around it.
-/

namespace GameExport.Text

/-- A text is another one with blanks around it, which has none at its own ends. -/
structure IsTrimmed (s core : List Char) : Prop where
  around : ∃ front back, s = front ++ core ++ back ∧ ∀ c ∈ front ++ back, isBlank c = true
  first : ∀ c ∈ core.head?, isBlank c = false
  last : ∀ c ∈ core.getLast?, isBlank c = false

theorem head?_dropWhile {s : List Char} : ∀ c ∈ (s.dropWhile isBlank).head?, isBlank c = false := by
  intro c hc
  have hnot := List.head?_dropWhile_not isBlank s
  rw [hc] at hnot
  simpa using hnot

/-- Dropping blanks stops at the first other character. -/
theorem dropWhile_append_of_blank {front core : List Char} (hfront : ∀ c ∈ front, isBlank c = true)
    (hcore : ∀ c ∈ core.head?, isBlank c = false) :
    (front ++ core).dropWhile isBlank = core := by
  rw [List.dropWhile_append_of_pos hfront]
  cases core with
  | nil => rfl
  | cons c core =>
      rw [List.dropWhile_cons_of_neg]
      rw [hcore c rfl]
      exact Bool.false_ne_true

/-- Trimming leaves a core without blanks at its ends. -/
theorem isTrimmed_trim (s : List Char) : IsTrimmed s (trim s) := by
  -- what follows the blanks at the front, and the blanks at its back
  generalize hrest : s.dropWhile isBlank = rest
  have hback : rest = trim s ++ (rest.reverse.takeWhile isBlank).reverse := by
    rw [trim, hrest, ← List.reverse_append, List.takeWhile_append_dropWhile, List.reverse_reverse]
  refine ⟨⟨s.takeWhile isBlank, (rest.reverse.takeWhile isBlank).reverse, ?_, fun c hc => ?_⟩,
    fun c hc => ?_, fun c hc => ?_⟩
  · rw [List.append_assoc, ← hback, ← hrest, List.takeWhile_append_dropWhile]
  · rcases List.mem_append.mp hc with hc | hc
    · exact List.mem_takeWhile_imp hc
    · exact List.mem_takeWhile_imp (List.mem_reverse.mp hc)
  · apply head?_dropWhile (s := s) c
    rw [hrest, hback, List.head?_append, Option.mem_def.mp hc]
    rfl
  · rw [trim, List.getLast?_reverse] at hc
    exact head?_dropWhile c hc

/-- There is no other way to trim a text. -/
theorem IsTrimmed.trim_eq {s core : List Char} (h : IsTrimmed s core) : trim s = core := by
  obtain ⟨⟨front, back, rfl, hblank⟩, hfirst, hlast⟩ := h
  have hfront : ∀ c ∈ front, isBlank c = true := fun c hc => hblank c (List.mem_append_left _ hc)
  have hback : ∀ c ∈ back.reverse, isBlank c = true :=
    fun c hc => hblank c (List.mem_append_right _ (List.mem_reverse.mp hc))
  by_cases hcore : core = []
  · subst hcore
    rw [List.append_nil, trim, List.dropWhile_eq_nil_iff.mpr hblank]
    rfl
  · rw [trim, List.append_assoc, dropWhile_append_of_blank hfront, List.reverse_append,
      dropWhile_append_of_blank hback, List.reverse_reverse]
    · simpa using hlast
    · rw [List.head?_append_of_ne_nil _ hcore]
      exact hfirst

/-- Trimming is the only way to take blanks away at both ends until something else comes. -/
theorem isTrimmed_iff {s core : List Char} : IsTrimmed s core ↔ trim s = core :=
  ⟨IsTrimmed.trim_eq, fun h => h ▸ isTrimmed_trim s⟩

end GameExport.Text
