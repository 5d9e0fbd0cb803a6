import GameExport.FileName
import GameExport.Proofs.Path.Descent

/-! # Sanitised names

A sanitised name is one portable file name, so it is one step of a path. Portable names are left as
they are, and no others, so sanitising is a projection. It brings no dot into a name that has none.
-/

namespace GameExport

/-- Characters are replaced one by one, so a text stays as it is if each of them does. -/
theorem Text.ofList_map_eq_self_iff {f : Char → Char} {s : String} :
    String.ofList (s.toList.map f) = s ↔ ∀ c ∈ s.toList, f c = c := by
  have hchars : String.ofList (s.toList.map f) = s ↔ s.toList.map f = s.toList.map id := by
    rw [List.map_id]
    constructor
    · intro h
      rw [← String.toList_ofList (l := s.toList.map f), h]
    · intro h
      rw [h, String.ofList_toList]
  rw [hchars, List.map_inj_left]
  rfl

namespace FileName

/-- No reserved character is left after the replacement. -/
theorem replaceReserved_not_reserved (name : String) :
    ∀ c ∈ (replaceReserved name).toList, isReserved c = false := by
  intro c hc
  rw [replaceReserved, String.toList_ofList] at hc
  obtain ⟨d, -, rfl⟩ := List.mem_map.mp hc
  by_cases hd : isReserved d
  · rw [if_pos hd]
    decide
  · rw [if_neg hd]
    simpa using hd

/-- Whatever the name, its sanitised form is a portable file name. -/
theorem isPortable_sanitize (name : String) : IsPortable (sanitize name) := by
  unfold sanitize
  dsimp only
  split
  · refine ⟨fun c hc => ?_, by decide, by decide, by decide⟩
    obtain rfl := List.mem_singleton.mp hc
    decide
  · next h =>
      simp only [not_or] at h
      exact ⟨replaceReserved_not_reserved name, h.1, h.2.1, h.2.2⟩

/-- Nothing is replaced exactly in names without reserved characters. -/
theorem replaceReserved_eq_self_iff {name : String} :
    replaceReserved name = name ↔ ∀ c ∈ name.toList, isReserved c = false := by
  rw [replaceReserved, Text.ofList_map_eq_self_iff]
  refine forall₂_congr fun c _ => ?_
  by_cases hc : isReserved c
  · -- the underscore is not reserved itself
    rw [if_pos hc]
    refine iff_of_false (fun heq => ?_) (by simp [hc])
    rw [← heq] at hc
    exact absurd hc (by decide)
  · simp [hc]

/-- Sanitising leaves exactly the portable names as they are. -/
theorem sanitize_eq_self_iff {name : String} : sanitize name = name ↔ IsPortable name := by
  constructor
  · intro h
    rw [← h]
    exact isPortable_sanitize name
  · intro h
    have hsame := replaceReserved_eq_self_iff.mpr h.not_reserved
    rw [sanitize, hsame]
    exact if_neg (not_or.mpr ⟨h.ne_empty, not_or.mpr ⟨h.ne_here, h.ne_parent⟩⟩)

/-- What has been made portable stays as it is. -/
theorem sanitize_sanitize (name : String) : sanitize (sanitize name) = sanitize name :=
  sanitize_eq_self_iff.mpr (isPortable_sanitize name)

/-- A portable name is one step of a path. -/
theorem IsPortable.isName {s : String} (h : IsPortable s) : Path.IsName s where
  no_slash := fun hmem => absurd (h.not_reserved '/' hmem) (by decide)
  ne_empty := h.ne_empty
  ne_here := h.ne_here
  ne_parent := h.ne_parent

theorem isName_sanitize (name : String) : Path.IsName (sanitize name) :=
  (isPortable_sanitize name).isName

theorem isName_sanitize_append (name : String) {suffix : String} (hslash : '/' ∉ suffix.toList)
    (hlong : 2 < suffix.toList.length) : Path.IsName (sanitize name ++ suffix) :=
  (isName_sanitize name).append hslash hlong

theorem dot_not_mem_sanitize {name : String} (h : '.' ∉ name.toList) :
    '.' ∉ (sanitize name).toList := by
  unfold sanitize
  dsimp only
  split
  · decide
  · rw [replaceReserved, String.toList_ofList]
    intro hdot
    obtain ⟨c, hc, heq⟩ := List.mem_map.mp hdot
    split at heq
    · revert heq
      decide
    · exact h (heq ▸ hc)

/-! ## Portable names as paths -/

/-- Separators, the zero character and control characters are reserved, so none of them is in a
portable name. -/
theorem IsPortable.plain {s : String} (h : IsPortable s) :
    '/' ∉ s.toList ∧ '\\' ∉ s.toList ∧ '\x00' ∉ s.toList ∧ ∀ c ∈ s.toList, isControl c = false := by
  have hnot {c : Char} (hc : isReserved c = true) : c ∉ s.toList := fun hmem => by
    rw [h.not_reserved c hmem] at hc
    cases hc
  refine ⟨hnot (by decide), hnot (by decide), hnot (by decide), fun c hc => ?_⟩
  have hreserved := h.not_reserved c hc
  rw [isReserved, Bool.or_eq_false_iff] at hreserved
  exact hreserved.2

/-- A text is a portable name exactly if it is one component of a path, a name, and has no reserved
character. -/
theorem isPortable_iff {s : String} :
    IsPortable s ↔
      (∀ c ∈ s.toList, isReserved c = false) ∧ (Path.mk s).components = [.name s] := by
  constructor
  · exact fun h => ⟨h.not_reserved, h.isName.components_eq⟩
  · rintro ⟨hreserved, hcomponents⟩
    refine ⟨hreserved, ?_, ?_, ?_⟩ <;> rintro rfl <;> revert hcomponents <;> decide

/-- Sanitising is a projection onto portable file names. Whatever the name, what becomes of it is
portable, so it has neither separators nor control characters; as a path it is one component, and it
adds just that component to every path that it is joined to. Only portable names are left as they
are, which are the single components without reserved characters, so sanitising once more changes
nothing. -/
theorem sanitize_projects (name : String) :
    IsPortable (sanitize name) ∧
      ('/' ∉ (sanitize name).toList ∧ '\\' ∉ (sanitize name).toList ∧
        '\x00' ∉ (sanitize name).toList ∧ ∀ c ∈ (sanitize name).toList, isControl c = false) ∧
      (Path.mk (sanitize name)).components = [.name (sanitize name)] ∧
      (sanitize name = name ↔ IsPortable name) ∧
      (IsPortable name ↔
        (∀ c ∈ name.toList, isReserved c = false) ∧ (Path.mk name).components = [.name name]) ∧
      sanitize (sanitize name) = sanitize name ∧
      ∀ p : Path,
        (p.join ⟨sanitize name⟩).components = p.components ++ [.name (sanitize name)] := by
  have hportable := isPortable_sanitize name
  exact ⟨hportable, hportable.plain, hportable.isName.components_eq, sanitize_eq_self_iff,
    isPortable_iff, sanitize_sanitize name, fun p => Path.components_join_name p hportable.isName⟩

end FileName

end GameExport
