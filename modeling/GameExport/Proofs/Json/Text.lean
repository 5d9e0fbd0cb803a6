import GameExport.Json.Value
import Mathlib.Data.List.Basic

/-! # Written strings

No code of a character is the start of the code of another one, so a written string tells which
string it was.
-/

namespace GameExport.Json

def escaped : List Char := ['\"', '\\'] ++ (List.range 0x20).map Char.ofNat

theorem mem_escaped_of_lt {c : Char} (h : c.toNat < 0x20) : c ∈ escaped := by
  apply List.mem_append_right
  rw [← Char.ofNat_toNat c]
  exact List.mem_map_of_mem (List.mem_range.mpr h)

theorem escapedChar_of_not_mem {c : Char} (h : c ∉ escaped) : escapedChar c = [c] := by
  have hbig : ¬ c.toNat < 0x20 := fun hlt => h (mem_escaped_of_lt hlt)
  unfold escapedChar
  split
  all_goals first | rw [if_neg hbig] | exact absurd (by decide) h

/-- What is escaped starts with a backslash. -/
theorem head?_escapedChar {c : Char} (hc : c ∈ escaped) : (escapedChar c).head? = some '\\' := by
  have hall : (escaped.all fun c => (escapedChar c).head? == some '\\') = true := by decide
  simpa using List.all_eq_true.mp hall c hc

/-- No escape is the beginning of another one. -/
theorem eq_of_prefix_escaped {c d : Char} (hc : c ∈ escaped) (hd : d ∈ escaped)
    (h : escapedChar c <+: escapedChar d) : c = d := by
  have hall : (escaped.all fun c => escaped.all fun d =>
      !(escapedChar c).isPrefixOf (escapedChar d) || c == d) = true := by decide +kernel
  have hpair := List.all_eq_true.mp (List.all_eq_true.mp hall c hc) d hd
  rw [List.isPrefixOf_iff_prefix.mpr h] at hpair
  simpa using hpair

theorem escapedChar_ne_nil (c : Char) : escapedChar c ≠ [] := by
  by_cases hc : c ∈ escaped
  · intro hnil
    have hhead := head?_escapedChar hc
    rw [hnil] at hhead
    cases hhead
  · rw [escapedChar_of_not_mem hc]
    exact List.cons_ne_nil c []

/-- A code that starts with another one is that code. -/
theorem eq_of_prefix_escapedChar {c d : Char} (h : escapedChar c <+: escapedChar d) : c = d := by
  have hhead : (escapedChar c).head? = (escapedChar d).head? := by
    obtain ⟨rest, hrest⟩ := h
    rw [← hrest, List.head?_append_of_ne_nil _ (escapedChar_ne_nil c)]
  by_cases hc : c ∈ escaped
  · by_cases hd : d ∈ escaped
    · exact eq_of_prefix_escaped hc hd h
    -- a code of several characters starts with a backslash, which is itself written as a code
    · rw [head?_escapedChar hc, escapedChar_of_not_mem hd] at hhead
      obtain rfl := Option.some.inj hhead
      exact absurd (by decide) hd
  · by_cases hd : d ∈ escaped
    · rw [head?_escapedChar hd, escapedChar_of_not_mem hc] at hhead
      obtain rfl := Option.some.inj hhead
      exact absurd (by decide) hc
    · rw [escapedChar_of_not_mem hc, escapedChar_of_not_mem hd] at hhead
      exact Option.some.inj hhead

/-- Texts that are escaped alike are the same. -/
theorem flatMap_escapedChar_injective {s t : List Char}
    (h : s.flatMap escapedChar = t.flatMap escapedChar) : s = t := by
  induction s generalizing t with
  | nil =>
      cases t with
      | nil => rfl
      | cons d t =>
          rw [List.flatMap_cons] at h
          exact absurd (List.append_eq_nil_iff.mp h.symm).1 (escapedChar_ne_nil d)
  | cons c s ih =>
      cases t with
      | nil =>
          rw [List.flatMap_cons] at h
          exact absurd (List.append_eq_nil_iff.mp h).1 (escapedChar_ne_nil c)
      | cons d t =>
          rw [List.flatMap_cons, List.flatMap_cons] at h
          have hc : escapedChar c <+: escapedChar d ++ t.flatMap escapedChar := ⟨_, h⟩
          have heq : c = d := by
            rcases List.prefix_or_prefix_of_prefix hc (List.prefix_append _ _) with h | h
            · exact eq_of_prefix_escapedChar h
            · exact (eq_of_prefix_escapedChar h).symm
          subst heq
          rw [ih (List.append_cancel_left h)]

theorem writeString_injective {s t : String} (h : writeString s = writeString t) : s = t := by
  unfold writeString at h
  have hcodes := List.append_cancel_right (List.cons.inj h).2
  exact String.toList_injective (flatMap_escapedChar_injective hcodes)

end GameExport.Json
