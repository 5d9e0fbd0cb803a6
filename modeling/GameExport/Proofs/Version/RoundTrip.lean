import GameExport.Proofs.Json.RoundTrip
import GameExport.Proofs.Version.Grammar

/-! # Versions that are written and read back

A version without a release has no letter and the release number zero, and a release letter is one
of ASCII. Values of that shape are what reading gives, and they are the ones that are read back from
their text, be it plain or a JSON string.
-/

namespace GameExport.Version

open GameExport.Json

namespace Parts

/-- There is an ASCII letter, or no letter and no number behind it. -/
def IsRegular (p : Parts) : Prop :=
  (p.letter = none ∧ p.number = 0) ∨ ∃ letter, p.letter = some letter ∧ letter.isAlpha = true

/-- The text for any values: the number behind the letter is left out with the letter. -/
def text (p : Parts) : String :=
  String.ofList (digits p.major ++ '.' :: digits p.minor ++ '.' :: digits p.build ++
    match p.letter with
    | none => []
    | some letter => letter :: digits p.number)

end Parts

theorem text_parts (v : Version) : v.parts.text = v.text := by
  obtain ⟨major, minor, build, release⟩ := v
  cases release <;> rfl

theorem isRegular_parts (v : Version) : v.parts.IsRegular := by
  obtain ⟨major, minor, build, release⟩ := v
  cases release with
  | none => exact .inl ⟨rfl, rfl⟩
  | some r => exact .inr ⟨r.letter, rfl, r.isAlpha_letter⟩

/-- Regular parts are those of a version. -/
theorem Parts.IsRegular.exists_parts_eq {p : Parts} (h : p.IsRegular) :
    ∃ v : Version, v.parts = p := by
  obtain ⟨major, minor, build, letter, number⟩ := p
  rcases h with ⟨hletter, hnumber⟩ | ⟨letter, hletter, halpha⟩
  · dsimp only at hletter hnumber
    subst hletter hnumber
    exact ⟨⟨major, minor, build, none⟩, rfl⟩
  · dsimp only at hletter
    subst hletter
    exact ⟨⟨major, minor, build, some ⟨letter, number, halpha⟩⟩, rfl⟩

variable {ε : Type} {read : String → Except ε Version} {write : Parts → String}

/-- Reading undoes writing for the regular values and gives no others. -/
structure ReadsBack (read : String → Except ε Version) (write : Parts → String) : Prop where
  read_write : ∀ p : Parts, p.IsRegular ↔ ∃ v, read (write p) = .ok v ∧ v.parts = p
  isRegular : ∀ s v, read s = .ok v → v.parts.IsRegular
  read_again : ∀ s v, read s = .ok v → read (write v.parts) = .ok v
  write_injective : ∀ s t v w, read s = .ok v → read t = .ok w →
    write v.parts = write w.parts → v = w

/-- If every version is read back, exactly the regular parts are. -/
theorem readsBack_of_read_write (h : ∀ v : Version, read (write v.parts) = .ok v) :
    ReadsBack read write where
  read_write p := by
    constructor
    · intro hregular
      obtain ⟨v, rfl⟩ := hregular.exists_parts_eq
      exact ⟨v, h v, rfl⟩
    · rintro ⟨v, -, rfl⟩
      exact isRegular_parts v
  isRegular _ v _ := isRegular_parts v
  read_again _ v _ := h v
  write_injective _ _ v w _ _ heq := Except.ok.inj ((h v).symm.trans (heq ▸ h w))

/-- A JSON string is read as the version that its content is. -/
theorem parse_json_eq_ok_iff {s : String} {v : Version} :
    Json.parse Decoder.version (Json.str s).compact = .ok v ↔ parse s = .ok v := by
  rw [parse_eq_of_read (read_compact _), Decoder.version, bind_eq_ok]
  constructor
  · rintro ⟨t, ht, hv⟩
    obtain rfl : s = t := Except.ok.inj ((Decoder.gives_string s _).symm.trans ht)
    exact mapError_eq_ok.mp hv
  · exact fun hv => ⟨s, Decoder.gives_string s _, mapError_eq_ok.mpr hv⟩

/-- The text of a version is read back as that version, as it is and as a JSON string. -/
theorem parse_readsBack :
    (∀ v : Version, v.parts.text = v.text) ∧ ReadsBack parse Parts.text ∧
      ReadsBack (Json.parse Decoder.version) (fun p => (Json.str p.text).compact) ∧
      ∀ s v, Json.parse Decoder.version (Json.str s).compact = .ok v ↔ parse s = .ok v := by
  have hread (v : Version) : parse v.parts.text = .ok v := by rw [text_parts, parse_text]
  exact ⟨text_parts, readsBack_of_read_write hread,
    readsBack_of_read_write fun v => parse_json_eq_ok_iff.mpr (hread v),
    fun _ _ => parse_json_eq_ok_iff⟩

end GameExport.Version
