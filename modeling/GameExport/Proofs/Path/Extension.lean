import GameExport.Path
import Mathlib.Data.List.Basic

/-! # Extensions

What an extension is, told by the name that it ends: it stands behind the last dot, and a dot that
starts the name does not count.
-/

namespace GameExport.Path

/-- An extension stands behind the last dot of a name, and something stands before that dot. -/
theorem extensionOf_eq_some_iff {α : Type} [DecidableEq α] {dot : α} {name extension : List α} :
    extensionOf dot name = some extension ↔
      dot ∉ extension ∧ ∃ stem, stem ≠ [] ∧ name = stem ++ dot :: extension := by
  constructor
  · intro h
    unfold extensionOf at h
    dsimp only at h
    split at h
    · next hlength =>
        have hcut := List.takeWhile_append_dropWhile (p := (· ≠ dot)) (l := name.reverse)
        have hname := congrArg List.reverse hcut
        have hcount := congrArg List.length hcut
        rw [List.reverse_append, List.reverse_reverse] at hname
        rw [List.length_append, List.length_reverse] at hcount
        obtain rfl := Option.some.inj h
        cases hrest : name.reverse.dropWhile (· ≠ dot) with
        | nil =>
            rw [hrest, List.length_nil] at hcount
            omega
        | cons c rest =>
            have hc : c = dot := by
              have hne : name.reverse.dropWhile (· ≠ dot) ≠ [] := by
                rw [hrest]
                exact List.cons_ne_nil c rest
              have hhead := List.head_dropWhile_not _ hne
              simpa only [hrest, List.head_cons, decide_eq_false_iff_not, not_not] using hhead
            rw [hrest, hc, List.reverse_cons, List.append_assoc, List.singleton_append] at hname
            rw [hrest, List.length_cons] at hcount
            refine ⟨fun hmem => ?_, rest.reverse, fun hnil => ?_, hname.symm⟩
            · have hall := List.all_takeWhile (p := (· ≠ dot)) (l := name.reverse)
              simpa using List.all_eq_true.mp hall dot (List.mem_reverse.mp hmem)
            · rw [List.reverse_eq_nil_iff.mp hnil, List.length_nil] at hcount
              omega
    · cases h
  · rintro ⟨hdot, stem, hstem, rfl⟩
    have hall : ∀ c ∈ extension.reverse, decide (c ≠ dot) := by
      intro c hc
      have hne : c ≠ dot := fun heq => hdot (heq ▸ List.mem_reverse.mp hc)
      simpa using hne
    have hbehind : (stem ++ dot :: extension).reverse.takeWhile (· ≠ dot) = extension.reverse := by
      rw [List.reverse_append, List.reverse_cons, List.append_assoc,
        List.takeWhile_append_of_pos hall, List.singleton_append,
        List.takeWhile_cons_of_neg (by simp), List.append_nil]
    have hlength : 0 < stem.length := List.length_pos_of_ne_nil hstem
    unfold extensionOf
    dsimp only
    rw [hbehind, List.reverse_reverse, if_pos]
    rw [List.length_reverse, List.length_append, List.length_cons]
    omega

/-- An extension is what stands behind the last dot of a file name that does not start with it. -/
theorem extension_eq_some_iff {p : Path} {extension : String} :
    p.extension = some extension ↔
      '.' ∉ extension.toList ∧
        ∃ stem, stem ≠ "" ∧ p.fileName = some (stem ++ "." ++ extension) := by
  unfold Path.extension fileName
  constructor
  · intro h
    obtain ⟨chars, hchars, rfl⟩ := Option.map_eq_some_iff.mp h
    obtain ⟨name, hname, hextension⟩ := Option.bind_eq_some_iff.mp hchars
    obtain ⟨hdot, stem, hstem, rfl⟩ := extensionOf_eq_some_iff.mp hextension
    refine ⟨by simpa using hdot, String.ofList stem, by simpa using hstem, ?_⟩
    rw [hname, Option.map_some, Option.some.injEq]
    apply String.toList_injective
    simp
  · rintro ⟨hdot, stem, hstem, hname⟩
    obtain ⟨chars, hchars, hspelled⟩ := Option.map_eq_some_iff.mp hname
    have hsplit : chars = stem.toList ++ '.' :: extension.toList := by
      have hlist := congrArg String.toList hspelled
      simpa using hlist
    refine Option.map_eq_some_iff.mpr ⟨extension.toList, ?_, String.ofList_toList⟩
    refine Option.bind_eq_some_iff.mpr ⟨chars, hchars, extensionOf_eq_some_iff.mpr ⟨hdot, ?_⟩⟩
    exact ⟨stem.toList, fun hnil => hstem (String.toList_eq_nil_iff.mp hnil), hsplit⟩

end GameExport.Path
