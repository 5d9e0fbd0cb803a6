import Mathlib.Data.List.Basic
import GameExport.Version

/-! # Reading a written version

The text of a version is read as that version: three numbers, and the release with its letter and
number if there is one.
-/

namespace GameExport.Version

theorem toNat_of_isDigit {c : Char} (h : c.isDigit) : 48 ≤ c.toNat ∧ c.toNat ≤ 57 := by
  simpa [Char.isDigit, UInt32.le_iff_toNat_le] using h

theorem isBlank_of_isDigit {c : Char} (h : c.isDigit) : Text.isBlank c = false := by
  have hrange := toNat_of_isDigit h
  simp only [Text.isBlank, Bool.or_eq_false_iff, Bool.and_eq_false_iff, decide_eq_false_iff_not,
    beq_eq_false_iff_ne]
  omega

theorem isDigit_of_mem_digits {n : UInt16} {c : Char} (h : c ∈ digits n) : c.isDigit :=
  Nat.isDigit_of_mem_toDigits (by decide) (by decide) h

theorem digits_ne_nil (n : UInt16) : digits n ≠ [] := Nat.toDigits_ne_nil

theorem readDigits_digits (n : UInt16) : readDigits (digits n) = some n := by
  have hall : (digits n).all Char.isDigit :=
    List.all_eq_true.mpr fun c hc => isDigit_of_mem_digits hc
  have hvalue : Nat.ofDigitChars 10 (digits n) 0 = n.toNat := Nat.ofDigitChars_ten_toDigits
  rw [readDigits, if_pos ⟨digits_ne_nil n, hall, by rw [hvalue]; exact n.toNat_lt⟩, hvalue]
  simp

/-- Digits are read without a sign. -/
theorem readNumber_digits (n : UInt16) : readNumber (digits n) = some n := by
  rw [← readDigits_digits n, readNumber]
  rintro ds heq
  have hplus : '+' ∈ digits n := by rw [heq]; exact List.mem_cons_self
  exact absurd (isDigit_of_mem_digits hplus) (by decide)

theorem cutAtPoint_append {front : List Char} (h : '.' ∉ front) (rest : List Char) :
    cutAtPoint (front ++ '.' :: rest) = (front, some rest) := by
  have hpoint : ∀ c ∈ front, decide (c ≠ '.') :=
    fun c hc => decide_eq_true fun heq => h (heq ▸ hc)
  rw [cutAtPoint, List.takeWhile_append_of_pos hpoint, List.dropWhile_append_of_pos hpoint,
    List.takeWhile_cons_of_neg (by simp), List.dropWhile_cons_of_neg (by simp), List.append_nil]

theorem point_not_mem_digits (n : UInt16) : '.' ∉ digits n :=
  fun h => absurd (isDigit_of_mem_digits h) (by decide)

theorem not_isDigit_of_isAlpha {c : Char} (h : c.isAlpha) : ¬ c.isDigit := by
  intro hdigit
  have hrange := toNat_of_isDigit hdigit
  have halpha : c.isAlpha =
      (decide (65 ≤ c.val ∧ c.val ≤ 90) || (decide (97 ≤ c.val) && decide (c.val ≤ 122))) := rfl
  have htoNat : c.val.toNat = c.toNat := rfl
  rw [halpha] at h
  simp only [UInt32.le_iff_toNat_le, htoNat, Bool.or_eq_true, Bool.and_eq_true,
    decide_eq_true_eq, UInt32.reduceToNat] at h
  omega

/-- A release is read back from what is written for it, and so is none. -/
theorem readRelease_writeRelease (r : Option Release) : readRelease (writeRelease r) = some r := by
  cases r with
  | none => rfl
  | some r =>
      rw [writeRelease, readRelease, dif_pos r.isAlpha_letter, if_neg (digits_ne_nil r.number),
        readNumber_digits]
      rfl

/-- Digits end where something else comes. -/
theorem cutDigits {front rest : List Char} (hfront : ∀ c ∈ front, c.isDigit)
    (hrest : ∀ c ∈ rest.head?, ¬ c.isDigit) :
    (front ++ rest).takeWhile Char.isDigit = front ∧
      (front ++ rest).dropWhile Char.isDigit = rest := by
  rw [List.takeWhile_append_of_pos hfront, List.dropWhile_append_of_pos hfront]
  cases rest with
  | nil => exact ⟨List.append_nil _, rfl⟩
  | cons c rest =>
      have hc : ¬ c.isDigit := hrest c rfl
      rw [List.takeWhile_cons_of_neg hc, List.dropWhile_cons_of_neg hc, List.append_nil]
      exact ⟨rfl, rfl⟩

/-- What is written for a release starts with no digit, so the build number ends before it. -/
theorem not_isDigit_writeRelease (r : Option Release) :
    ∀ c ∈ (writeRelease r).head?, ¬ c.isDigit := by
  cases r with
  | none => exact nofun
  | some r =>
      rintro c ⟨⟩
      exact not_isDigit_of_isAlpha r.isAlpha_letter

/-- A version is read back from its text. -/
theorem readTrimmed_write (v : Version) : readTrimmed v.write = some v := by
  obtain ⟨hbuild, hrelease⟩ := cutDigits (fun c hc => isDigit_of_mem_digits (n := v.build) hc)
    (not_isDigit_writeRelease v.release)
  have hwrite : v.write = digits v.major ++ '.' ::
      (digits v.minor ++ '.' :: (digits v.build ++ writeRelease v.release)) := by
    simp [write]
  rw [hwrite, readTrimmed, cutAtPoint_append (point_not_mem_digits v.major)]
  simp only [readNumber_digits, Option.bind_eq_bind, Option.bind_some,
    cutAtPoint_append (point_not_mem_digits v.minor), hbuild, hrelease, readDigits_digits,
    readRelease_writeRelease]

theorem isBlank_of_head {n : UInt16} {rest : List Char} {c : Char}
    (h : c ∈ (digits n ++ rest).head?) : Text.isBlank c = false := by
  rw [List.head?_append_of_ne_nil _ (digits_ne_nil n)] at h
  exact isBlank_of_isDigit (isDigit_of_mem_digits (List.mem_of_mem_head? h))

theorem isBlank_of_getLast {front : List Char} {n : UInt16} {c : Char}
    (h : c ∈ (front ++ digits n).getLast?) : Text.isBlank c = false := by
  rw [List.getLast?_append_of_ne_nil _ (digits_ne_nil n)] at h
  exact isBlank_of_isDigit (isDigit_of_mem_digits (List.mem_of_getLast? h))

/-- A version starts and ends with a digit, so there are no blanks around it. -/
theorem trim_write (v : Version) : Text.trim v.write = v.write := by
  apply Text.trim_eq_self
  · intro c hc
    rw [write, List.append_assoc, List.append_assoc] at hc
    exact isBlank_of_head hc
  · intro c hc
    rw [write] at hc
    cases hrelease : v.release with
    | none =>
        rw [hrelease, writeRelease, List.append_nil] at hc
        rw [List.append_cons] at hc
        exact isBlank_of_getLast hc
    | some r =>
        rw [hrelease, writeRelease, List.append_cons] at hc
        exact isBlank_of_getLast hc

/-- A version that is shown is parsed as the same version. -/
theorem parse_text (v : Version) : parse v.text = .ok v := by
  rw [parse, text, String.toList_ofList, trim_write, readTrimmed_write]

end GameExport.Version
