import GameExport.Proofs.FileName
import GameExport.Proofs.Path.Fronts

/-! # Backslashes that become slashes

A backslash is a character like others in a path, so a text in which all of them have become slashes
spells another path. It leads to another place too, unless one of the two paths climbs.
-/

namespace GameExport

/-- Cutting loses nothing but separators, so any other character is in one of the parts. -/
theorem Text.mem_iff_exists_split {α : Type} [DecidableEq α] {separator c : α} {s : List α}
    (hc : c ≠ separator) : c ∈ s ↔ ∃ part ∈ split separator s, c ∈ part := by
  have hcut := congrArg (c ∈ ·) (cons_eq_flatMap_split separator s)
  simpa [hc] using hcut

namespace Path

/-- A character other than the slash is in a text if it is in one of the parts. -/
theorem mem_iff_exists_parts {α : Type} [DecidableEq α] {slash c : α} {s : List α}
    (hc : c ≠ slash) : c ∈ s ↔ ∃ part ∈ parts slash s, c ∈ part := by
  rw [Text.mem_iff_exists_split hc]
  refine exists_congr fun part => ?_
  rw [parts, List.mem_filter, decide_eq_true_iff, and_assoc, and_congr_right_iff]
  exact fun _ => ⟨fun hmem => ⟨List.ne_nil_of_mem hmem, hmem⟩, And.right⟩

/-- A character that neither separates names nor spells directories is in one of the names. -/
theorem mem_text_iff {p : Path} {c : Char} (hslash : c ≠ '/') (hdot : c ≠ '.') :
    c ∈ p.text.toList ↔ ∃ n, .name n ∈ p.steps ∧ c ∈ n.toList := by
  rw [mem_iff_exists_parts hslash]
  constructor
  · rintro ⟨part, hpart, hc⟩
    refine ⟨String.ofList part, List.mem_append_right _ (List.mem_map.mpr ⟨part, hpart, ?_⟩), ?_⟩
    · have hnot {name : List Char} (hname : ∀ d ∈ name, d = '.') : part ≠ name := by
        rintro rfl
        exact hdot (hname c hc)
      rw [componentOf, if_neg (hnot (by simp)), if_neg (hnot (by simp))]
    · rwa [String.toList_ofList]
  · rintro ⟨n, hn, hc⟩
    have hspelled : .name n ∈ (parts '/' p.text.toList).map componentOf := by
      refine (List.mem_append.mp hn).resolve_left fun hroot => ?_
      split at hroot <;> simp at hroot
    obtain ⟨part, hpart, hname⟩ := List.mem_map.mp hspelled
    have htext := text_componentOf part
    rw [hname] at htext
    exact ⟨part, hpart, htext ▸ hc⟩

/-! ## Where a path that never climbs leads -/

namespace Component

/-- Steps that only go down put their names in front of where they start. -/
theorem exists_place_eq_append {cs : List Component} (hup : .up ∉ cs) (hroot : .root ∉ cs)
    (l : Location) : ∃ ns, place l cs = ns ++ l ∧ ∀ n, n ∈ ns ↔ .name n ∈ cs := by
  induction cs generalizing l with
  | nil => exact ⟨[], rfl, by simp⟩
  | cons c cs ih =>
      simp only [List.mem_cons, not_or] at hup hroot
      obtain ⟨ns, hplace, hns⟩ := ih hup.2 hroot.2 (c.follow l)
      cases c with
      | root => exact absurd rfl hroot.1
      | here => exact ⟨ns, hplace, by simpa using hns⟩
      | up => exact absurd rfl hup.1
      | name n =>
          refine ⟨ns ++ [n], ?_, fun m => ?_⟩
          · rw [place_cons, hplace, follow, List.append_assoc, List.singleton_append]
          · rw [List.mem_append, List.mem_singleton, hns, List.mem_cons, name.injEq, or_comm]

end Component

/-- A path that never climbs leads down by its own names. -/
theorem exists_place_eq {p : Path} (hup : .up ∉ p.steps) (l : Location) :
    ∃ ns, p.place l = ns ++ (if p.isAbsolute then [] else l) ∧ ∀ n, n ∈ ns ↔ .name n ∈ p.steps := by
  have hroot : .root ∉ (parts '/' p.text.toList).map componentOf := by
    intro hmem
    obtain ⟨part, -, hpart⟩ := List.mem_map.mp hmem
    exact componentOf_ne_root part hpart
  rw [steps, List.mem_append, not_or] at hup
  obtain ⟨ns, hplace, hns⟩ :=
    Component.exists_place_eq_append hup.2 hroot (if p.isAbsolute then [] else l)
  refine ⟨ns, ?_, fun n => ?_⟩
  · rw [← hplace, place, steps, Component.place_append]
    split <;> rfl
  · rw [hns, steps, List.mem_append, or_iff_right]
    split <;> simp

/-! ## Slashes for backslashes -/

/-- A text is changed exactly if it has a backslash. -/
theorem normalized_eq_self_iff {s : String} : normalized s = s ↔ '\\' ∉ s.toList := by
  rw [normalized, Text.ofList_map_eq_self_iff]
  constructor
  · intro h hmem
    exact absurd (h _ hmem) (by decide)
  · intro h c hc
    refine if_neg ?_
    rintro rfl
    exact h hc

theorem backslash_not_mem_normalized (s : String) : '\\' ∉ (normalized s).toList := by
  rw [normalized, String.toList_ofList]
  intro hmem
  obtain ⟨c, -, hc⟩ := List.mem_map.mp hmem
  split at hc
  · exact absurd hc (by decide)
  · next hne => exact hne hc

/-- Characters that are no separators anywhere stay where they are. -/
theorem mem_normalized_iff {s : String} {c : Char} (hslash : c ≠ '/') (hback : c ≠ '\\') :
    c ∈ (normalized s).toList ↔ c ∈ s.toList := by
  rw [normalized, String.toList_ofList, List.mem_map]
  constructor
  · rintro ⟨d, hd, hc⟩
    split at hc
    · exact absurd hc.symm hslash
    · exact hc ▸ hd
  · exact fun hc => ⟨c, hc, if_neg hback⟩

theorem isAbsolute_normalized {p : Path} (h : p.isAbsolute) :
    (Path.mk (normalized p.text)).isAbsolute := by
  unfold isAbsolute normalized at *
  rw [String.toList_ofList, List.head?_map, decide_eq_true_iff.mp h]
  decide

/-- With slashes for its backslashes a path leads to the same place only if it has none, provided
that neither of the two climbs. -/
theorem place_normalized_eq_iff {p : Path} (hup : .up ∉ p.steps)
    (hup' : .up ∉ (Path.mk (normalized p.text)).steps) (l : Location) :
    (Path.mk (normalized p.text)).place l = p.place l ↔ '\\' ∉ p.text.toList := by
  refine ⟨fun heq hback => ?_, fun hback => by rw [normalized_eq_self_iff.mpr hback]⟩
  obtain ⟨n, hstep, hn⟩ := (mem_text_iff (by decide) (by decide)).mp hback
  obtain ⟨ns, hplace, hns⟩ := exists_place_eq hup l
  obtain ⟨ms, hplace', hms⟩ := exists_place_eq hup' l
  rw [hplace, hplace'] at heq
  -- a name with a backslash would be among the names of the path that has none
  have hmem : n ∈ ms := by
    by_cases habsolute : p.isAbsolute
    · rw [if_pos habsolute, if_pos (isAbsolute_normalized habsolute)] at heq
      rw [List.append_cancel_right heq]
      exact (hns n).mpr hstep
    · rw [if_neg habsolute] at heq
      split at heq
      · rw [← List.append_nil ms, heq]
        exact List.mem_append_left l ((hns n).mpr hstep)
      · rw [List.append_cancel_right heq]
        exact (hns n).mpr hstep
  exact backslash_not_mem_normalized p.text
    ((mem_text_iff (by decide) (by decide)).mpr ⟨n, (hms n).mp hmem, hn⟩)

end Path

end GameExport
