/-! # Blank characters

A character is blank if Unicode gives it the property White_Space. Trimming removes
blank characters at both ends and none inside.
-/

namespace GameExport.Text

/-- The twenty-five characters with the property White_Space. -/
def isBlank (c : Char) : Bool :=
  let n := c.toNat
  (9 ≤ n && n ≤ 13) || n == 0x20 || n == 0x85 || n == 0xA0 || n == 0x1680 ||
    (0x2000 ≤ n && n ≤ 0x200A) || n == 0x2028 || n == 0x2029 || n == 0x202F ||
    n == 0x205F || n == 0x3000

/-- The text without the blank characters before its first and after its last other one. -/
def trim (s : List Char) : List Char :=
  ((s.dropWhile isBlank).reverse.dropWhile isBlank).reverse

/-- A text that neither starts nor ends with a blank character is left alone. -/
theorem trim_eq_self {s : List Char} (hfirst : ∀ c ∈ s.head?, isBlank c = false)
    (hlast : ∀ c ∈ s.getLast?, isBlank c = false) : trim s = s := by
  have drop_eq : ∀ t : List Char, (∀ c ∈ t.head?, isBlank c = false) →
      t.dropWhile isBlank = t := by
    intro t ht
    cases t with
    | nil => rfl
    | cons c r => simp [ht c (by simp)]
  rw [trim, drop_eq s hfirst, drop_eq s.reverse (by simpa using hlast), List.reverse_reverse]

end GameExport.Text
