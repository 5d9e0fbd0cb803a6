import GameExport.Proofs.Disk.Removal
import GameExport.Proofs.Staging.Containment

/-! # The life of a workspace

A workspace is prepared, used any number of times, and closed. No use takes the root of the
workspace away or changes anything outside of it, so closing it finds it and removes it with all
that was ever put there.
-/

namespace GameExport

open GameExport.Path FileTree

/-! ## Paths that end in a dot -/

namespace Disk

section EndsInDot

variable {p : Path} {t u : FileTree}

theorem locateParent_of_here (t : FileTree) (hlast : p.steps.getLast? = some .here) :
    (∃ e, t.locateParent p = .error e) ∨ ∃ l, t.locateParent p = .ok (l, .here) := by
  cases hlocate : t.locateParent p with
  | error e => exact Or.inl ⟨e, rfl⟩
  | ok found =>
      right
      unfold locateParent at hlocate
      split at hlocate
      · cases hlocate
      · obtain ⟨l, -, h⟩ := bind_eq_ok.mp hlocate
        obtain ⟨_, -, h⟩ := bind_eq_ok.mp h
        rw [hlast] at h
        exact ⟨l, congrArg Except.ok (Except.ok.inj h).symm⟩

/-- No directory is made for a path that ends in a dot. -/
theorem ensureDirectory_of_here (hlast : p.steps.getLast? = some .here) (t : FileTree) :
    ((ensureDirectory p).outcome t).2 = t := by
  have hmake : ∃ e, (makeDirectory p).outcome t = (.error e, t) := by
    unfold makeDirectory
    rcases locateParent_of_here t hlast with ⟨e, he⟩ | ⟨l, hl⟩
    · exact ⟨e, by simp only [Action.outcome_bind, outcome_look, he]⟩
    · exact ⟨.alreadyExists, by
        simp only [Action.outcome_bind, outcome_look, hl, Action.outcome_throw]⟩
  obtain ⟨e, he⟩ := hmake
  unfold ensureDirectory
  simp only [Action.outcome_tryCatch, he, Action.outcome_bind, Action.outcome_ask]
  split <;> rfl

/-- Directories that are made for a path that ends in a dot are around its place, which was there
already. -/
theorem isDirectory_of_makeDirectories (hclimb : .up ∉ p.steps)
    (hlast : p.steps.getLast? = some .here) {x : Unit}
    (h : (makeDirectories p).outcome t = (.ok x, u)) : t.isDirectory p := by
  have hne : p.text ≠ "" := by
    intro hempty
    rw [steps_of_text_eq_empty hempty] at hlast
    cases hlast
  obtain ⟨hworking, hisDirectory, -⟩ := makeDirectories_eq_ok h
  obtain ⟨hreaches, hdir⟩ := isDirectory_iff.mp (hisDirectory hne)
  -- the paths around this one end above its place
  have hmoves : ChangesWithin .none (fun l m => m ≠ p.place l) t u := by
    have hnested : (makeDirectories p).Moves
        (ChangesWithin .none fun l m => m ≠ p.place l) := by
      rw [makeDirectories, if_neg hne]
      apply ensureNested_moves_of_each ChangesWithin.refl fun _ _ _ h k => h.trans k
      intro q hq
      rcases List.mem_cons.mp hq with rfl | hq
      · intro s
        rw [ensureDirectory_of_here hlast]
        exact .refl s
      · exact ensureDirectory_moves fun _ l => place_ne_of_mem_around hclimb hq l
    have hend := hnested t
    rwa [h] at hend
  have hplace : u.place p = t.place p := place_congr hworking p
  have hold : t.get? (t.place p) = some .directory := by
    rcases hmoves.outside (t.place p) id with heq | ⟨hmade, -⟩
    · rw [← heq, ← hplace]
      exact hdir
    · exact absurd rfl hmade
  rw [hplace] at hdir
  exact hreaches.isDirectory_of_get? hclimb hworking hdir hold

end EndsInDot

end Disk

namespace Workspace

variable {root : Path} {config : WorkspaceConfig} {t u : FileTree} {w : Workspace}

/-! ## Preparing -/

/-- Clearing touches nothing outside the root. -/
theorem clear_moves (root : Path) : (clear root).Moves (ChangesWithin (.under root) .none) := by
  unfold clear
  refine .bind (fun _ _ _ h k => h.trans k) (.ask ChangesWithin.refl _) fun found => ?_
  split
  · exact Disk.removeDirectory_moves root
  · exact .pure ChangesWithin.refl ()

theorem outcome_clear (root : Path) (t : FileTree) :
    (clear root).outcome t =
      if t.contains root then (Disk.removeDirectory root).outcome t else (.ok (), t) := by
  unfold clear
  rw [Action.outcome_ask_bind]
  split <;> rfl

/-- A workspace is opened by clearing its root and making it anew. -/
theorem prepare_eq_ok (h : (prepare root config).outcome t = (.ok w, u)) :
    w.root = root ∧ ∃ v, (clear root).outcome t = (.ok (), v) ∧
      (Disk.makeDirectories root).outcome v = (.ok (), u) := by
  unfold prepare at h
  dsimp only at h
  split at h
  · cases h
  · obtain ⟨_, v, hclear, h⟩ := Action.outcome_bind_eq_ok.mp h
    obtain ⟨_, v', hmake, h⟩ := Action.outcome_bind_eq_ok.mp h
    obtain ⟨hw, rfl⟩ := Prod.mk.inj h
    rw [Action.outcome_mapError_eq_ok] at hclear hmake
    exact ⟨by rw [← Except.ok.inj hw], v, hclear, hmake⟩

/-- A workspace is only opened for names that are long enough. -/
theorem minNameLength_le_of_prepare (h : (prepare root config).outcome t = (.ok w, u)) :
    minNameLength ≤ w.nameLength := by
  unfold prepare at h
  dsimp only at h
  split at h
  · cases h
  · next hlength =>
      obtain ⟨_, v, -, h⟩ := Action.outcome_bind_eq_ok.mp h
      obtain ⟨_, v', -, h⟩ := Action.outcome_bind_eq_ok.mp h
      obtain ⟨hw, -⟩ := Prod.mk.inj h
      rw [← Except.ok.inj hw]
      exact Nat.le_of_not_lt hlength

/-- Preparing a workspace changes its root at most, and the directories that lead to it. -/
theorem prepare_changesWithin (h : (prepare root config).outcome t = (.ok w, u)) :
    ChangesWithin (.under root) (.along root) t u := by
  obtain ⟨-, v, hclear, hmake⟩ := prepare_eq_ok h
  have hfirst := clear_moves root t
  have hsecond := Disk.makeDirectories_moves_along root v
  rw [hclear] at hfirst
  rw [hmake] at hsecond
  refine ChangesWithin.trans (hfirst.mono (fun _ _ => id) fun _ _ hnone => hnone.elim) ?_
  exact hsecond.mono (fun _ _ hnone => hnone.elim) fun _ _ hm => Or.inr hm

section NeverClimbing

variable (hclimb : .up ∉ root.steps) {n : String} (hname : .name n ∈ root.steps)

include hclimb hname

/-- The root of a workspace that could be prepared ends in a name. -/
theorem getLast?_of_prepare (h : (prepare root config).outcome t = (.ok w, u)) :
    ∃ k, root.steps.getLast? = some (.name k) := by
  obtain ⟨-, v, hclear, hmake⟩ := prepare_eq_ok h
  refine (getLast?_steps_cases hclimb hname).resolve_left fun hlast => ?_
  have hfound : v.isDirectory root := Disk.isDirectory_of_makeDirectories hclimb hlast hmake
  rw [outcome_clear] at hclear
  split at hclear
  · exact Disk.removeDirectory_ne_ok_of_here hclimb hlast hclear
  · next hmissing =>
      obtain ⟨-, rfl⟩ := Prod.mk.inj hclear
      exact hmissing (contains_of_isDirectory hfound)

end NeverClimbing

/-! ## Using -/

inductive Use where
  | allocate
  | stage (inputs : List Path)
  | extract (archive : Path)

def after (w : Workspace) (s : Stage) : Use → Stage
  | .allocate =>
      let draw : Action Names StageError Path := w.allocate
      { s with names := (draw.outcome s.names).2 }
  | .stage inputs => ((w.stage inputs).outcome s).2
  | .extract archive => ((w.extract archive).outcome s).2

variable (w : Workspace)

/-- However a use ends, the files have grown inside the workspace. -/
theorem after_growsBelow (s : Stage) (use : Use) :
    GrowsBelow w.root s.tree (w.after s use).tree := by
  cases use with
  | allocate => exact GrowsWithin.refl s.tree
  | stage inputs => exact w.stage_growsBelow inputs s
  | extract archive => exact w.extract_growsBelow archive s

/-- Whatever is done with a workspace, only what is in it grows. -/
theorem uses_growBelow (uses : List Use) (s : Stage) :
    GrowsBelow w.root s.tree (uses.foldl w.after s).tree := by
  induction uses generalizing s with
  | nil => exact GrowsWithin.refl s.tree
  | cons use uses ih =>
      have hfirst : GrowsBelow w.root s.tree (w.after s use).tree := w.after_growsBelow s use
      exact hfirst.trans _ _ _ (ih (w.after s use))

/-! ## Closing -/

/-- A workspace that has been prepared can be closed whatever has been done with it, and whether
that succeeded or failed. Then nothing is left at its root, and nothing outside has changed, except
that missing directories on the way to the root have been made. -/
theorem close_leavesNoTrace (hname : ∃ n, .name n ∈ root.components)
    (hclimb : .up ∉ root.components) {w : Workspace} {prepared : FileTree}
    (h : (prepare root config).outcome t = (.ok w, prepared)) (names : Names) (uses : List Use) :
    ∃ u, w.close.outcome (uses.foldl w.after ⟨prepared, names⟩).tree = (.ok (), u) ∧
      (∀ m, t.place root <:+ m → u.get? m = none) ∧
      ChangesWithin (.under root) (.along root) t u := by
  obtain ⟨n, hn⟩ := hname
  rw [mem_components (by simp)] at hn hclimb
  obtain ⟨k, hlast⟩ := getLast?_of_prepare hclimb hn h
  have hprepare := prepare_changesWithin h
  obtain ⟨hroot, v, -, hmake⟩ := prepare_eq_ok h
  have huses : GrowsBelow w.root prepared (uses.foldl w.after ⟨prepared, names⟩).tree :=
    w.uses_growBelow uses ⟨prepared, names⟩
  rw [hroot] at huses
  generalize (uses.foldl w.after ⟨prepared, names⟩).tree = used at huses
  -- the root has stayed a directory, so it is found and removed
  have hdir : used.isDirectory root := by
    obtain ⟨-, hisDirectory, -⟩ := Disk.makeDirectories_eq_ok hmake
    apply huses.grows.isDirectory
    apply hisDirectory
    intro hempty
    rw [steps_of_text_eq_empty hempty] at hn
    cases hn
  obtain ⟨u, hremove, hgone⟩ := Disk.removeDirectory_of_isDirectory hdir hclimb hlast
  have hclose : w.close.outcome used = (.ok (), u) := by
    rw [close, hroot, outcome_clear, if_pos (contains_of_isDirectory hdir), hremove]
  have hlife : ChangesWithin (.under root) (.along root) t used := hprepare.trans huses.changes
  refine ⟨u, hclose, fun m hm => hgone m ?_, hlife.trans ?_⟩
  · rwa [place_congr hlife.workingDirectory]
  · have hmoves := Disk.removeDirectory_moves root used
    rw [hremove] at hmoves
    exact hmoves.mono (fun _ _ => id) fun _ _ hnone => hnone.elim

/-- A workspace where an older one was left behind. One of its uses fails. -/
theorem close_leavesNoTrace_of_stale_root :
    let tree := ((do
      Disk.makeDirectories ⟨"tmp/work/old"⟩
      Disk.writeText ⟨"keep.txt"⟩ "kept") : Disk.Operation Unit).outcome {} |>.2
    let uses : List Use := [.allocate, .stage [⟨"keep.txt"⟩], .extract ⟨"missing.zip"⟩, .allocate]
    ∃ w prepared u, (prepare ⟨"tmp/work"⟩ {}).outcome tree = (.ok w, prepared) ∧
      w.close.outcome (uses.foldl w.after ⟨prepared, { letter := fun _ _ => 0 }⟩).tree =
        (.ok (), u) ∧
      (∀ m, tree.place ⟨"tmp/work"⟩ <:+ m → u.get? m = none) ∧
      ChangesWithin (.under ⟨"tmp/work"⟩) (.along ⟨"tmp/work"⟩) tree u := by
  intro tree uses
  have hprepare : ((prepare ⟨"tmp/work"⟩ {}).outcome tree).1 = .ok ⟨⟨"tmp/work"⟩, 10⟩ := by
    decide +kernel
  generalize hrun : (prepare ⟨"tmp/work"⟩ {}).outcome tree = run at hprepare
  obtain ⟨report, prepared⟩ := run
  obtain rfl := hprepare
  obtain ⟨u, hclose, hgone, houtside⟩ := close_leavesNoTrace
    ⟨"work", by decide⟩ (by decide) hrun { letter := fun _ _ => 0 } uses
  exact ⟨_, prepared, u, rfl, hclose, hgone, houtside⟩

end Workspace

end GameExport
