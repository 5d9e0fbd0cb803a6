/-! # Parts between separators

A list is cut at every separator. There is always at least one part, and parts may be empty.
-/

namespace GameExport.Text

variable {α : Type} [DecidableEq α]

def split (separator : α) : List α → List (List α)
  | [] => [[]]
  | c :: cs =>
      if c = separator then [] :: split separator cs
      else match split separator cs with
        | [] => [[c]]
        | part :: parts => (c :: part) :: parts

theorem split_ne_nil (separator : α) (s : List α) : split separator s ≠ [] := by
  cases s with
  | nil => simp [split]
  | cons c cs =>
      unfold split
      split
      · simp
      · split <;> simp

/-- No part holds a separator. -/
theorem separator_not_mem_split (separator : α) {s part : List α}
    (h : part ∈ split separator s) : separator ∉ part := by
  induction s generalizing part with
  | nil => simp_all [split]
  | cons c cs ih =>
      unfold split at h
      split at h
      · rcases List.mem_cons.mp h with rfl | h
        · simp
        · exact ih h
      · next hne =>
          split at h
          · next heq => exact absurd heq (split_ne_nil separator cs)
          · next first rest heq =>
              rcases List.mem_cons.mp h with rfl | h
              · have := ih (show first ∈ split separator cs by simp [heq])
                simpa [Ne.symm hne] using this
              · exact ih (by simp [heq, h])

/-- With the separators put back the parts are the list again. -/
theorem intercalate_split (separator : α) (s : List α) :
    [separator].intercalate (split separator s) = s := by
  induction s with
  | nil => simp [split, List.intercalate]
  | cons c cs ih =>
      unfold split
      split
      · next h =>
          subst h
          cases hs : split c cs with
          | nil => exact absurd hs (split_ne_nil c cs)
          | cons first rest =>
              rw [hs] at ih
              simp only [List.intercalate, List.intersperse, List.flatten_cons] at ih ⊢
              simp [ih]
      · split
        · next heq => exact absurd heq (split_ne_nil separator cs)
        · next first rest heq =>
            rw [heq] at ih
            cases rest with
            | nil => simpa [List.intercalate] using ih
            | cons second more =>
                simp only [List.intercalate, List.intersperse, List.flatten_cons,
                  List.cons_append] at ih ⊢
                rw [ih]

theorem split_of_not_mem {separator : α} {s : List α} (h : separator ∉ s) :
    split separator s = [s] := by
  induction s with
  | nil => rfl
  | cons c cs ih =>
      simp only [List.mem_cons, not_or] at h
      simp [split, Ne.symm h.1, ih h.2]

end GameExport.Text
