import GameExport.Proofs.Disk.Operations
import GameExport.Proofs.Path.Descent

/-! # Removing a directory

What is removed stands at the place of a path or below it. A path that never climbs does not lead
through what is removed, so it can still be followed when everything below is gone, and the
directory itself goes last.
-/

namespace GameExport

open GameExport.Path FileTree

namespace FileTree

/-- A path that never climbs can be followed wherever the same stands above its place. -/
theorem Reaches.of_agree {t u : FileTree} {p : Path} (h : t.Reaches p) (hclimb : .up ∉ p.steps)
    (hworking : u.workingDirectory = t.workingDirectory)
    (hagree : ∀ m, m <:+ t.place p → u.get? m = t.get? m) : u.Reaches p where
  accepted := h.accepted
  walk := by
    rw [hworking]
    intro before c after hsteps
    -- what has been walked stands above the place, as the rest leads down from there
    have habove (front back : List Component) (hfront : p.steps = front ++ back)
        (hroot : .root ∉ back) :
        u.get? (Component.place t.workingDirectory front) =
          t.get? (Component.place t.workingDirectory front) := by
      apply hagree
      rw [hfront, List.mem_append, not_or] at hclimb
      rw [place, Path.place, hfront, Component.place_append]
      exact Component.suffix_place hclimb.2 hroot
    have hafter : .root ∉ after := by
      intro hmem
      obtain ⟨front, back, rfl⟩ := List.append_of_mem hmem
      have hback : p.steps = (before ++ c :: front) ++ .root :: back := by
        rw [hsteps, List.append_assoc, List.cons_append]
      exact ne_root_of_steps hback (by simp) rfl
    have hstep := h.walk before c after hsteps
    have hstart (hc : c ≠ .root) : u.get? (Component.place t.workingDirectory before) =
        t.get? (Component.place t.workingDirectory before) :=
      habove before (c :: after) hsteps (by simp [hc.symm, hafter])
    cases c with
    | root => trivial
    | here => exact (hstart (by simp)).trans hstep
    | up => exact (hstart (by simp)).trans hstep
    | name n =>
        have hnext := habove (before ++ [.name n]) after (by simp [hsteps]) hafter
        rw [Component.place_append] at hnext
        exact ⟨(hstart (by simp)).trans hstep.1, hstep.2.1, hnext ▸ hstep.2.2⟩
  closing := fun hslash => by
    rw [place_congr hworking, hagree _ List.suffix_rfl]
    exact h.closing hslash

/-- Where a directory stands, it is found if its path leads to a directory in another tree. Above a
directory there are directories in both trees. -/
theorem Reaches.isDirectory_of_get? {t u : FileTree} {p : Path} (h : u.Reaches p)
    (hclimb : .up ∉ p.steps) (hworking : u.workingDirectory = t.workingDirectory)
    (hnew : u.get? (t.place p) = some .directory) (hold : t.get? (t.place p) = some .directory) :
    t.isDirectory p := by
  refine isDirectory_iff.mpr ⟨h.of_agree hclimb hworking.symm fun m hm => ?_, hold⟩
  rw [place_congr hworking] at hm
  by_cases hm' : m = t.place p
  · rw [hm', hold, hnew]
  · rw [get?_of_suffix hold hm hm', get?_of_suffix hnew hm hm']

/-- Of a path that can be followed the last step is found. -/
theorem Reaches.locateParent {t : FileTree} {p : Path} {c : Component} (h : t.Reaches p)
    (hlast : p.steps.getLast? = some c) (hc : c ≠ .root) :
    ∃ l, t.locateParent p = .ok (l, c) := by
  obtain ⟨front, hfront⟩ := List.getLast?_eq_some_iff.mp hlast
  have hwalk := h.walk
  rw [hfront, canWalk_append, canWalk_cons] at hwalk
  unfold FileTree.locateParent
  simp only [h.accepted, hfront, List.dropLast_concat, List.getLast?_concat, Option.getD_some]
  refine ⟨_, bind_eq_ok.mpr ⟨_, walk_eq_ok.mpr ⟨rfl, hwalk.1⟩, bind_eq_ok.mpr ⟨(), ?_, rfl⟩⟩⟩
  exact checkDirectory_eq_ok.mpr (hwalk.2.1.directory hc)

/-- What is not below an emptied directory stays, and so does the directory. -/
theorem get?_emptyAt_of_not_below (t : FileTree) {l m : Location} (h : l <:+ m → m = l) :
    (t.emptyAt l).get? m = t.get? m := by
  cases m with
  | nil => rfl
  | cons n m => rw [get?_emptyAt _ _ (by simp), if_neg fun hm => hm.2 (h hm.1)]

/-- Emptying a directory leaves the way to it as it is. -/
theorem Reaches.emptyAt {t : FileTree} {p : Path} (h : t.Reaches p) (hclimb : .up ∉ p.steps) :
    (t.emptyAt (t.place p)).Reaches p := by
  refine h.of_agree hclimb rfl fun m hm => ?_
  apply get?_emptyAt_of_not_below
  intro hbelow
  exact hm.eq_of_length_le hbelow.length_le

end FileTree

namespace Disk

/-- Removal changes only what is removed. -/
theorem changesWithin_removeAt {t : FileTree} {l : Location} {free : Region}
    (hfree : ∀ m, l <:+ m → free t.workingDirectory m) :
    ChangesWithin free .none t (t.removeAt l) where
  workingDirectory := rfl
  outside := by
    intro m hm
    left
    cases m with
    | nil => rfl
    | cons n m => rw [get?_removeAt _ _ (by simp), if_neg fun h => hm (hfree _ h)]

/-- Emptying changes only what is below the directory. -/
theorem changesWithin_emptyAt {t : FileTree} {l : Location} {free : Region}
    (hfree : ∀ m, l <:+ m → free t.workingDirectory m) :
    ChangesWithin free .none t (t.emptyAt l) where
  workingDirectory := rfl
  outside := fun m hm => Or.inl (get?_emptyAt_of_not_below t fun h => absurd (hfree m h) hm)

theorem removeEmpty_moves (p : Path) :
    (removeEmpty p).Moves (ChangesWithin (.under p) .none) := by
  intro t
  unfold removeEmpty
  rcases locateParent_cases t p with
    ⟨e, hlocate⟩ | ⟨l, c, hlocate, hname⟩ | ⟨l, name, hlocate, hends⟩
  · simp only [Action.outcome_bind, outcome_look, hlocate]
    exact .refl t
  · cases c with
    | name n => exact absurd rfl (hname n)
    | _ =>
        simp only [Action.outcome_bind, outcome_look, hlocate, Action.outcome_throw]
        exact .refl t
  · simp only [Action.outcome_bind, outcome_look, hlocate, Action.outcome_of]
    apply changesWithin_removeAt
    intro m hm
    rwa [Region.under, ← FileTree.place, hends.place_eq]

/-- A file is removed from its own place. -/
theorem removeFile_moves (p : Path) : (removeFile p).Moves (ChangesWithin (.under p) .none) := by
  intro t
  unfold removeFile
  rw [Action.outcome_bind, outcome_look]
  split
  · next l s heq =>
      obtain ⟨hlocate, rfl⟩ := Prod.mk.inj heq
      obtain ⟨hplace, -⟩ := locate_eq_ok.mp hlocate
      rw [Action.outcome_of]
      split
      · exact .refl t
      · refine changesWithin_removeAt fun m hm => ?_
        rwa [hplace] at hm
  · next e s heq =>
      obtain ⟨-, rfl⟩ := Prod.mk.inj heq
      exact .refl t

/-- What is no directory is not removed as one. -/
theorem removeDirectory_of_not_isDirectory {p : Path} {t : FileTree} (h : ¬ t.isDirectory p) :
    ∃ e, (removeDirectory p).outcome t = (.error e, t) := by
  unfold removeDirectory
  cases hlocate : t.locate p with
  | error e => exact ⟨e, by simp only [Action.outcome_bind, outcome_look, hlocate]⟩
  | ok l =>
      obtain ⟨rfl, hreaches⟩ := locate_eq_ok.mp hlocate
      cases hcheck : t.checkDirectory (t.place p) with
      | error e => exact ⟨e, by simp only [Action.outcome_bind, outcome_look, hlocate, hcheck]⟩
      | ok x => exact absurd (isDirectory_iff.mpr ⟨hreaches, checkDirectory_eq_ok.mp hcheck⟩) h

/-- A directory is emptied, and then removed itself. -/
theorem outcome_removeDirectory {p : Path} {t : FileTree} (h : t.isDirectory p) :
    (removeDirectory p).outcome t =
      (tryCatch (removeEmpty p) fun e =>
        if e = .notFound then pure () else throw e).outcome (t.emptyAt (t.place p)) := by
  obtain ⟨hreaches, hdir⟩ := isDirectory_iff.mp h
  unfold removeDirectory
  simp only [Action.outcome_bind, outcome_look, locate_eq_ok.mpr ⟨rfl, hreaches⟩,
    checkDirectory_eq_ok.mpr hdir, Action.outcome_of]

/-- However removing a directory ends, only what stands at its place or below it may be gone. -/
theorem removeDirectory_moves (p : Path) :
    (removeDirectory p).Moves (ChangesWithin (.under p) .none) := by
  intro t
  by_cases h : t.isDirectory p
  · rw [outcome_removeDirectory h]
    have hempty : ChangesWithin (.under p) .none t (t.emptyAt (t.place p)) :=
      changesWithin_emptyAt fun m hm => hm
    have hrest : Action.Moves (ChangesWithin (.under p) .none)
        (tryCatch (removeEmpty p) fun e =>
          if e = FileError.notFound then pure () else throw e) := by
      refine .tryCatch (fun _ _ _ h k => h.trans k) (removeEmpty_moves p) fun e => ?_
      split
      · exact .pure ChangesWithin.refl ()
      · exact .throw ChangesWithin.refl e
    exact hempty.trans (hrest _)
  · obtain ⟨e, he⟩ := removeDirectory_of_not_isDirectory h
    rw [he]
    exact .refl t

section NeverClimbing

variable {p : Path} {t u : FileTree}

/-- A directory whose path never climbs and ends in a name is removed with all that it holds. -/
theorem removeDirectory_of_isDirectory (h : t.isDirectory p) (hclimb : .up ∉ p.steps) {n : String}
    (hlast : p.steps.getLast? = some (.name n)) :
    ∃ u, (removeDirectory p).outcome t = (.ok (), u) ∧ ∀ m, t.place p <:+ m → u.get? m = none := by
  obtain ⟨hreaches, -⟩ := isDirectory_iff.mp h
  obtain ⟨parent, hends, -⟩ := (hreaches.emptyAt hclimb).endsIn hlast
  have hplace : t.place p = n :: parent := hends.place_eq
  refine ⟨(t.emptyAt (t.place p)).removeAt (n :: parent), ?_, fun m hm => ?_⟩
  · rw [outcome_removeDirectory h, Action.outcome_tryCatch]
    simp only [removeEmpty, Action.outcome_bind, outcome_look, hends.locateParent_eq,
      Action.outcome_of]
  · rw [hplace] at hm
    obtain ⟨front, rfl⟩ := hm
    rw [get?_removeAt _ _ (by simp), if_pos (List.suffix_append _ _)]

/-- A directory whose path ends in a dot is emptied, and stays. -/
theorem removeDirectory_of_here (h : t.isDirectory p) (hclimb : .up ∉ p.steps)
    (hlast : p.steps.getLast? = some .here) :
    (removeDirectory p).outcome t = (.error .invalidArgument, t.emptyAt (t.place p)) := by
  obtain ⟨hreaches, -⟩ := isDirectory_iff.mp h
  obtain ⟨l, hlocate⟩ := (hreaches.emptyAt hclimb).locateParent hlast (by simp)
  rw [outcome_removeDirectory h, Action.outcome_tryCatch]
  simp only [removeEmpty, Action.outcome_bind, outcome_look, hlocate, Action.outcome_throw,
    reduceCtorEq, if_false]

/-- A directory whose path ends in a dot cannot be removed. -/
theorem removeDirectory_ne_ok_of_here (hclimb : .up ∉ p.steps)
    (hlast : p.steps.getLast? = some .here) : (removeDirectory p).outcome t ≠ (.ok (), u) := by
  intro hok
  by_cases h : t.isDirectory p
  · rw [removeDirectory_of_here h hclimb hlast] at hok
    cases hok
  · obtain ⟨e, he⟩ := removeDirectory_of_not_isDirectory h
    rw [he] at hok
    cases hok

end NeverClimbing

end Disk

end GameExport
