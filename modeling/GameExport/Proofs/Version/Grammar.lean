import GameExport.Proofs.Text.Trim
import GameExport.Proofs.Version

/-! # The grammar of versions

A version is spelled by one, two or three numbers with points between them. Behind the third number
there may be a letter, and a fourth number behind that. Nothing else is read as a version, and what
is read are the values of the numbers that are there.
-/

namespace GameExport.Version

open GameExport.Text

/-- The values of a version: no letter stands for no release, and zero for a missing number. -/
structure Parts where
  major : UInt16
  minor : UInt16
  build : UInt16
  letter : Option Char
  number : UInt16
  deriving DecidableEq

def parts (v : Version) : Parts :=
  ⟨v.major, v.minor, v.build, v.release.map Release.letter, v.releaseNumber⟩

/-- One or more ASCII digits and their value. -/
structure IsDigits (s : List Char) (n : UInt16) : Prop where
  ne_nil : s ≠ []
  digits : ∀ c ∈ s, c.isDigit = true
  value : Nat.ofDigitChars 10 s 0 = n.toNat

/-- Digits that may have a plus sign before them. -/
def IsNumber (s : List Char) (n : UInt16) : Prop :=
  IsDigits s n ∨ ∃ ds, s = '+' :: ds ∧ IsDigits ds n

/-- The texts of versions: N, N.N, N.N.D, N.N.DL and N.N.DLN with numbers N, digits D and a letter L.
-/
inductive Spells : List Char → Parts → Prop where
  | major {a : List Char} {major : UInt16} (ha : IsNumber a major) :
      Spells a ⟨major, 0, 0, none, 0⟩
  | minor {a b : List Char} {major minor : UInt16} (ha : IsNumber a major) (hb : IsNumber b minor) :
      Spells (a ++ '.' :: b) ⟨major, minor, 0, none, 0⟩
  | build {a b c : List Char} {major minor build : UInt16} (ha : IsNumber a major)
      (hb : IsNumber b minor) (hc : IsDigits c build) :
      Spells (a ++ '.' :: (b ++ '.' :: c)) ⟨major, minor, build, none, 0⟩
  | letter {a b c : List Char} {major minor build : UInt16} {letter : Char}
      (ha : IsNumber a major) (hb : IsNumber b minor) (hc : IsDigits c build)
      (hletter : letter.isAlpha = true) :
      Spells (a ++ '.' :: (b ++ '.' :: (c ++ [letter]))) ⟨major, minor, build, some letter, 0⟩
  | number {a b c d : List Char} {major minor build number : UInt16} {letter : Char}
      (ha : IsNumber a major) (hb : IsNumber b minor) (hc : IsDigits c build)
      (hletter : letter.isAlpha = true) (hd : IsNumber d number) :
      Spells (a ++ '.' :: (b ++ '.' :: (c ++ letter :: d)))
        ⟨major, minor, build, some letter, number⟩

variable {s a b c d : List Char} {n major minor build number : UInt16} {letter : Char}
  {v : Version} {p : Parts}

/-! ## Numbers -/

/-- What is read as digits are digits of that value. -/
theorem readDigits_eq_some_iff : readDigits s = some n ↔ IsDigits s n := by
  constructor
  · intro h
    obtain ⟨⟨hne, hall, hlt⟩, hn⟩ := Option.ite_none_right_eq_some.mp h
    obtain rfl := Option.some.inj hn
    refine ⟨hne, List.all_eq_true.mp hall, ?_⟩
    rw [Nat.toUInt16, UInt16.toNat_ofNat_of_lt' hlt]
  · rintro ⟨hne, hdigits, hvalue⟩
    rw [readDigits, hvalue, if_pos ⟨hne, List.all_eq_true.mpr hdigits, n.toNat_lt⟩]
    simp

theorem IsDigits.not_mem (h : IsDigits s n) (hletter : letter.isDigit = false) : letter ∉ s := by
  intro hmem
  rw [h.digits letter hmem] at hletter
  cases hletter

/-- What is read as a number is one. -/
theorem readNumber_eq_some_iff : readNumber s = some n ↔ IsNumber s n := by
  unfold readNumber
  split
  · next ds =>
      rw [readDigits_eq_some_iff]
      constructor
      · exact fun h => .inr ⟨ds, rfl, h⟩
      · rintro (h | ⟨_, heq, h⟩)
        · exact absurd List.mem_cons_self (h.not_mem (by decide))
        · rw [(List.cons.inj heq).2]
          exact h
  · next hsign =>
      rw [readDigits_eq_some_iff]
      constructor
      · exact .inl
      · rintro (h | ⟨ds, rfl, -⟩)
        · exact h
        · exact absurd rfl (hsign ds)

theorem IsNumber.point_not_mem (h : IsNumber s n) : '.' ∉ s := by
  rcases h with h | ⟨ds, rfl, h⟩
  · exact h.not_mem (by decide)
  · intro hmem
    rcases List.mem_cons.mp hmem with heq | hmem
    · exact absurd heq (by decide)
    · exact h.not_mem (by decide) hmem

theorem IsNumber.ne_nil (h : IsNumber s n) : s ≠ [] := by
  rcases h with h | ⟨ds, rfl, -⟩
  · exact h.ne_nil
  · exact List.cons_ne_nil _ ds

/-! ## Points -/

theorem cutAtPoint_of_not_mem (h : '.' ∉ s) : cutAtPoint s = (s, none) := by
  have hall : ∀ c ∈ s, decide (c ≠ '.') = true :=
    fun c hc => decide_eq_true fun heq => h (heq ▸ hc)
  rw [cutAtPoint, List.takeWhile_eq_self_iff.mpr hall, List.dropWhile_eq_nil_iff.mpr hall]

/-- A text has no point, or a first one. -/
theorem exists_eq_append_point (s : List Char) :
    '.' ∉ s ∨ ∃ a b, '.' ∉ a ∧ s = a ++ '.' :: b := by
  by_cases h : '.' ∈ s
  · obtain ⟨a, b, rfl, ha⟩ := List.eq_append_cons_of_mem h
    exact .inr ⟨a, b, ha, rfl⟩
  · exact .inl h

theorem readTrimmed_of_not_mem (h : '.' ∉ s) :
    readTrimmed s = (readNumber s).bind fun major => some ⟨major, 0, 0, none⟩ := by
  rw [readTrimmed, cutAtPoint_of_not_mem h]
  rfl

theorem readTrimmed_append_of_not_mem (ha : '.' ∉ a) (hb : '.' ∉ b) :
    readTrimmed (a ++ '.' :: b) = (readNumber a).bind fun major =>
      (readNumber b).bind fun minor => some ⟨major, minor, 0, none⟩ := by
  rw [readTrimmed, cutAtPoint_append ha]
  dsimp only
  rw [cutAtPoint_of_not_mem hb]
  rfl

/-- Behind the second point the digits are the build, and the rest is the release. -/
theorem readTrimmed_append (ha : '.' ∉ a) (hb : '.' ∉ b) (c : List Char) :
    readTrimmed (a ++ '.' :: (b ++ '.' :: c)) = (readNumber a).bind fun major =>
      (readNumber b).bind fun minor => (readDigits (c.takeWhile Char.isDigit)).bind fun build =>
        (readRelease (c.dropWhile Char.isDigit)).bind fun release =>
          some ⟨major, minor, build, release⟩ := by
  rw [readTrimmed, cutAtPoint_append ha]
  dsimp only
  rw [cutAtPoint_append hb]
  rfl

/-! ## Whole versions -/

/-- What is read behind three numbers spells a release, or nothing is left behind them. -/
theorem spells_of_readRelease (ha : IsNumber a major) (hb : IsNumber b minor)
    (hc : IsDigits c build) {release : Option Release} (h : readRelease d = some release) :
    Spells (a ++ '.' :: (b ++ '.' :: (c ++ d))) (parts ⟨major, minor, build, release⟩) := by
  cases d with
  | nil =>
      obtain rfl := Option.some.inj h
      rw [List.append_nil]
      exact .build ha hb hc
  | cons letter d =>
      rw [readRelease] at h
      split at h
      · next hletter =>
          obtain ⟨number, hnumber, rfl⟩ := Option.map_eq_some_iff.mp h
          by_cases hd : d = []
          · rw [if_pos hd] at hnumber
            obtain rfl := Option.some.inj hnumber
            subst hd
            exact .letter ha hb hc hletter
          · rw [if_neg hd] at hnumber
            exact .number ha hb hc hletter (readNumber_eq_some_iff.mp hnumber)
      · cases h

/-- What is read is spelled. -/
theorem spells_of_readTrimmed (h : readTrimmed s = some v) : Spells s v.parts := by
  rcases exists_eq_append_point s with hs | ⟨a, r, ha, rfl⟩
  · rw [readTrimmed_of_not_mem hs] at h
    obtain ⟨major, hmajor, h⟩ := Option.bind_eq_some_iff.mp h
    obtain rfl := Option.some.inj h
    exact .major (readNumber_eq_some_iff.mp hmajor)
  · rcases exists_eq_append_point r with hb | ⟨b, t, hb, rfl⟩
    · rw [readTrimmed_append_of_not_mem ha hb] at h
      obtain ⟨major, hmajor, h⟩ := Option.bind_eq_some_iff.mp h
      obtain ⟨minor, hminor, h⟩ := Option.bind_eq_some_iff.mp h
      obtain rfl := Option.some.inj h
      exact .minor (readNumber_eq_some_iff.mp hmajor) (readNumber_eq_some_iff.mp hminor)
    · rw [readTrimmed_append ha hb] at h
      obtain ⟨major, hmajor, h⟩ := Option.bind_eq_some_iff.mp h
      obtain ⟨minor, hminor, h⟩ := Option.bind_eq_some_iff.mp h
      obtain ⟨build, hbuild, h⟩ := Option.bind_eq_some_iff.mp h
      obtain ⟨release, hrelease, h⟩ := Option.bind_eq_some_iff.mp h
      obtain rfl := Option.some.inj h
      rw [← List.takeWhile_append_dropWhile (p := Char.isDigit) (l := t)]
      exact spells_of_readRelease (readNumber_eq_some_iff.mp hmajor)
        (readNumber_eq_some_iff.mp hminor) (readDigits_eq_some_iff.mp hbuild) hrelease

/-- The third number is read up to the release. -/
theorem readTrimmed_of_build (ha : IsNumber a major) (hb : IsNumber b minor) (hc : IsDigits c build)
    (hd : ∀ letter ∈ d.head?, ¬ letter.isDigit) {release : Option Release}
    (hrelease : readRelease d = some release) :
    readTrimmed (a ++ '.' :: (b ++ '.' :: (c ++ d))) = some ⟨major, minor, build, release⟩ := by
  obtain ⟨htake, hdrop⟩ := cutDigits hc.digits hd
  rw [readTrimmed_append ha.point_not_mem hb.point_not_mem, htake, hdrop,
    readNumber_eq_some_iff.mpr ha, readNumber_eq_some_iff.mpr hb, readDigits_eq_some_iff.mpr hc,
    hrelease]
  rfl

theorem not_isDigit_head (hletter : letter.isAlpha = true) (d : List Char) :
    ∀ c ∈ (letter :: d).head?, ¬ c.isDigit := by
  rintro c ⟨⟩
  exact not_isDigit_of_isAlpha hletter

theorem readRelease_letter (hletter : letter.isAlpha = true) :
    readRelease [letter] = some (some ⟨letter, 0, hletter⟩) := by
  rw [readRelease, dif_pos hletter]
  rfl

theorem readRelease_number (hletter : letter.isAlpha = true) (hd : IsNumber d number) :
    readRelease (letter :: d) = some (some ⟨letter, number, hletter⟩) := by
  rw [readRelease, dif_pos hletter, if_neg hd.ne_nil, readNumber_eq_some_iff.mpr hd]
  rfl

theorem Spells.exists_readTrimmed (h : Spells s p) : ∃ v, readTrimmed s = some v ∧ v.parts = p := by
  cases h with
  | @major _ major ha =>
      refine ⟨⟨major, 0, 0, none⟩, ?_, rfl⟩
      rw [readTrimmed_of_not_mem ha.point_not_mem, readNumber_eq_some_iff.mpr ha]
      rfl
  | @minor _ _ major minor ha hb =>
      refine ⟨⟨major, minor, 0, none⟩, ?_, rfl⟩
      rw [readTrimmed_append_of_not_mem ha.point_not_mem hb.point_not_mem,
        readNumber_eq_some_iff.mpr ha, readNumber_eq_some_iff.mpr hb]
      rfl
  | @build a b c _ _ _ ha hb hc =>
      have hread := readTrimmed_of_build ha hb hc (d := []) nofun rfl
      rw [List.append_nil] at hread
      exact ⟨_, hread, rfl⟩
  | letter ha hb hc hletter =>
      exact ⟨_, readTrimmed_of_build ha hb hc (not_isDigit_head hletter [])
        (readRelease_letter hletter), rfl⟩
  | number ha hb hc hletter hd =>
      exact ⟨_, readTrimmed_of_build ha hb hc (not_isDigit_head hletter _)
        (readRelease_number hletter hd), rfl⟩

/-- A release is told by its letter and its number. -/
theorem release_eq {r r' : Option Release} (hletter : r.map Release.letter = r'.map Release.letter)
    (hnumber : (r.map Release.number).getD 0 = (r'.map Release.number).getD 0) : r = r' := by
  cases r with
  | none =>
      cases r' with
      | none => rfl
      | some r' => cases hletter
  | some r =>
      cases r' with
      | none => cases hletter
      | some r' =>
          obtain ⟨letter, number, hr⟩ := r
          obtain ⟨letter', number', hr'⟩ := r'
          obtain rfl : letter = letter' := Option.some.inj hletter
          obtain rfl : number = number' := hnumber
          rfl

/-- A version is told by its parts. -/
theorem parts_injective {v w : Version} (h : v.parts = w.parts) : v = w := by
  obtain ⟨hmajor, hminor, hbuild, hletter, hnumber⟩ := Parts.mk.inj h
  exact Version.mk.injEq _ _ _ _ _ _ _ _ |>.mpr
    ⟨hmajor, hminor, hbuild, release_eq hletter hnumber⟩

/-- A version is read exactly from what spells it. -/
theorem readTrimmed_eq_some_iff : readTrimmed s = some v ↔ Spells s v.parts := by
  refine ⟨spells_of_readTrimmed, fun h => ?_⟩
  obtain ⟨w, hw, hparts⟩ := h.exists_readTrimmed
  rw [hw, parts_injective hparts]

theorem parse_eq_ok_iff {text : String} :
    parse text = .ok v ↔ readTrimmed (trim text.toList) = some v := by
  rw [parse]
  cases readTrimmed (trim text.toList) <;> simp

theorem parse_eq_error_iff {text : String} {e : InvalidVersion} :
    parse text = .error e ↔ e = ⟨text⟩ ∧ readTrimmed (trim text.toList) = none := by
  rw [parse]
  cases readTrimmed (trim text.toList) <;> simp [eq_comm]

/-- A text is read as a version exactly if it spells that version, blanks around it left aside. The
error for any other text carries the text as it was given. -/
theorem parse_grammar (text : String) :
    (∀ v, parse text = .ok v ↔ ∃ core, IsTrimmed text.toList core ∧ Spells core v.parts) ∧
      ∀ e, parse text = .error e ↔
        e = ⟨text⟩ ∧ ¬ ∃ core p, IsTrimmed text.toList core ∧ Spells core p := by
  refine ⟨fun v => ?_, fun e => ?_⟩
  · rw [parse_eq_ok_iff, readTrimmed_eq_some_iff]
    simp only [isTrimmed_iff, exists_eq_left']
  · rw [parse_eq_error_iff, Option.eq_none_iff_forall_ne_some]
    refine and_congr_right fun _ => ?_
    simp only [isTrimmed_iff, exists_and_left, exists_eq_left']
    constructor
    · rintro hnone ⟨p, hp⟩
      obtain ⟨v, hv, -⟩ := hp.exists_readTrimmed
      exact hnone v hv
    · exact fun hnone v hv => hnone ⟨v.parts, spells_of_readTrimmed hv⟩

end GameExport.Version
