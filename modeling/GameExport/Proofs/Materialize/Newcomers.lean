import GameExport.Materialize
import Mathlib.Data.List.Induction

/-! # The first scripts of their files

Several scripts may share a file. A newcomer is a script whose file is not known from the start and
which is the first one in the list with that file; all others come too late.
-/

namespace GameExport.ScriptAsset

variable (root : Path) (known : Path → Bool)

/-- The script at a position is the first one with its file, and the file is not known. -/
def isNewcomer (ss : List ScriptAsset) (x : ScriptAsset × Nat) : Bool :=
  !known (x.1.file root) && (ss.take x.2).all fun s => s.file root ≠ x.1.file root

/-- The scripts that come first with files that are not known, in order. -/
def newcomers (ss : List ScriptAsset) : List ScriptAsset :=
  (ss.zipIdx.filter (isNewcomer root known ss)).map Prod.fst

/-- The scripts whose files are known or were brought by an earlier script, in order. -/
def latecomers (ss : List ScriptAsset) : List ScriptAsset :=
  (ss.zipIdx.filter fun x => !isNewcomer root known ss x).map Prod.fst

variable {root known}

/-- What comes later does not change who was first. -/
theorem isNewcomer_concat {ss : List ScriptAsset} (s : ScriptAsset) {x : ScriptAsset × Nat}
    (hx : x ∈ ss.zipIdx) : isNewcomer root known (ss ++ [s]) x = isNewcomer root known ss x := by
  have hlt : x.2 < ss.length := by
    have := List.snd_lt_of_mem_zipIdx hx
    omega
  rw [isNewcomer, isNewcomer, List.take_append_of_le_length (Nat.le_of_lt hlt)]

/-- A script at the end is a newcomer if its file is not known and no script before has it. -/
theorem newcomers_concat (ss : List ScriptAsset) (s : ScriptAsset) :
    newcomers root known (ss ++ [s]) = newcomers root known ss ++
      if isNewcomer root known (ss ++ [s]) (s, ss.length) then [s] else [] := by
  have hold : ss.zipIdx.filter (isNewcomer root known (ss ++ [s])) =
      ss.zipIdx.filter (isNewcomer root known ss) :=
    List.filter_congr fun x hx => isNewcomer_concat s hx
  rw [newcomers, newcomers, List.zipIdx_append, List.filter_append, List.map_append, hold]
  rw [List.zipIdx_singleton, Nat.zero_add]
  cases hlast : isNewcomer root known (ss ++ [s]) (s, ss.length) <;> simp [hlast]

theorem latecomers_concat (ss : List ScriptAsset) (s : ScriptAsset) :
    latecomers root known (ss ++ [s]) = latecomers root known ss ++
      if isNewcomer root known (ss ++ [s]) (s, ss.length) then [] else [s] := by
  have hold : ss.zipIdx.filter (fun x => !isNewcomer root known (ss ++ [s]) x) =
      ss.zipIdx.filter fun x => !isNewcomer root known ss x :=
    List.filter_congr fun x hx => by rw [isNewcomer_concat s hx]
  rw [latecomers, latecomers, List.zipIdx_append, List.filter_append, List.map_append, hold]
  rw [List.zipIdx_singleton, Nat.zero_add]
  cases hlast : isNewcomer root known (ss ++ [s]) (s, ss.length) <;> simp [hlast]

/-- The last script is a newcomer unless its file is known or was brought before. -/
theorem isNewcomer_last {ss : List ScriptAsset} {s : ScriptAsset} :
    isNewcomer root known (ss ++ [s]) (s, ss.length) ↔
      known (s.file root) = false ∧ ∀ v ∈ ss, v.file root ≠ s.file root := by
  rw [isNewcomer, List.take_left]
  simp

/-- A script with a new file comes first. -/
theorem comers_concat_new (known : Path → Bool) {ss : List ScriptAsset} {s : ScriptAsset}
    (hknown : known (s.file root) = false) (hnew : ∀ v ∈ ss, v.file root ≠ s.file root) :
    newcomers root known (ss ++ [s]) = newcomers root known ss ++ [s] ∧
      latecomers root known (ss ++ [s]) = latecomers root known ss := by
  have hlast := isNewcomer_last.mpr ⟨hknown, hnew⟩
  rw [newcomers_concat, latecomers_concat, if_pos hlast, if_pos hlast, List.append_nil]
  exact ⟨rfl, rfl⟩

/-- A script whose file is known or was brought before comes late. -/
theorem comers_concat_old (known : Path → Bool) {ss : List ScriptAsset} {s : ScriptAsset}
    (hold : known (s.file root) ∨ ∃ v ∈ ss, v.file root = s.file root) :
    newcomers root known (ss ++ [s]) = newcomers root known ss ∧
      latecomers root known (ss ++ [s]) = latecomers root known ss ++ [s] := by
  have hlast : ¬ isNewcomer root known (ss ++ [s]) (s, ss.length) := by
    rw [isNewcomer_last]
    rintro ⟨hknown, hnew⟩
    rcases hold with h | ⟨v, hv, heq⟩
    · rw [hknown] at h
      cases h
    · exact hnew v hv heq
  rw [newcomers_concat, latecomers_concat, if_neg hlast, if_neg hlast, List.append_nil]
  exact ⟨rfl, rfl⟩

/-- Where no two scripts share a file, a script is a newcomer unless its file is known. -/
theorem comers_of_nodup (known : Path → Bool) {ss : List ScriptAsset}
    (h : (ss.map (·.file root)).Nodup) :
    newcomers root known ss = ss.filter (fun s => !known (s.file root)) ∧
      latecomers root known ss = ss.filter fun s => known (s.file root) := by
  induction ss using List.reverseRecOn with
  | nil => exact ⟨rfl, rfl⟩
  | append_singleton ss s ih =>
      rw [List.map_append, List.map_singleton, List.nodup_append] at h
      obtain ⟨hold, -, hdisjoint⟩ := h
      obtain ⟨hnew, hlate⟩ := ih hold
      have hfresh : ∀ v ∈ ss, v.file root ≠ s.file root := fun v hv =>
        hdisjoint _ (List.mem_map_of_mem hv) _ List.mem_cons_self
      rw [List.filter_append, List.filter_append]
      cases hknown : known (s.file root) with
      | true =>
          have hold : known (s.file root) ∨ ∃ v ∈ ss, v.file root = s.file root := Or.inl hknown
          obtain ⟨hfirst, hlast⟩ := comers_concat_old known hold
          rw [hfirst, hlast, hnew, hlate]
          simp [hknown]
      | false =>
          obtain ⟨hfirst, hlast⟩ := comers_concat_new known hknown hfresh
          rw [hfirst, hlast, hnew, hlate]
          simp [hknown]

/-- A newcomer is one of the scripts, and its file is not known. -/
theorem mem_of_mem_newcomers {ss : List ScriptAsset} {s : ScriptAsset}
    (h : s ∈ newcomers root known ss) : s ∈ ss ∧ known (s.file root) = false := by
  obtain ⟨x, hx, rfl⟩ := List.mem_map.mp h
  obtain ⟨hmem, hfirst⟩ := List.mem_filter.mp hx
  rw [isNewcomer, Bool.and_eq_true] at hfirst
  exact ⟨List.fst_mem_of_mem_zipIdx hmem, by simpa using hfirst.1⟩

/-- Every file that is not known is brought by a newcomer. -/
theorem exists_newcomer (known : Path → Bool) {ss : List ScriptAsset} {s : ScriptAsset}
    (hs : s ∈ ss) (hknown : known (s.file root) = false) :
    ∃ v ∈ newcomers root known ss, v.file root = s.file root := by
  induction ss using List.reverseRecOn generalizing s with
  | nil => cases hs
  | append_singleton ss last ih =>
      have hstays : ∀ v ∈ newcomers root known ss, v ∈ newcomers root known (ss ++ [last]) := by
        intro v hv
        rw [newcomers_concat]
        exact List.mem_append_left _ hv
      by_cases hearlier : ∃ v ∈ ss, v.file root = s.file root
      · obtain ⟨v, hv, heq⟩ := hearlier
        obtain ⟨first, hfirst, hfile⟩ := ih hv (by rw [heq, hknown])
        exact ⟨first, hstays first hfirst, hfile.trans heq⟩
      · have hlast : s = last := by
          rcases List.mem_append.mp hs with hs | hs
          · exact absurd ⟨s, hs, rfl⟩ hearlier
          · exact List.mem_singleton.mp hs
        subst hlast
        refine ⟨s, ?_, rfl⟩
        rw [(comers_concat_new known hknown fun v hv heq => hearlier ⟨v, hv, heq⟩).1]
        exact List.mem_append_right _ List.mem_cons_self

end GameExport.ScriptAsset
