import GameExport.Failure
import GameExport.Job
import GameExport.Proofs.Action
import GameExport.Proofs.Descriptor
import GameExport.Proofs.Disk.Walk

/-! # Laws of the steps of a job

An operation on files, the work of a helper and taking an assembly down are the steps of which the
stages of an export are made. Each is told once by what it does when it ends with a value, and once
by how far it moves the files and the assemblies however it ends.
-/

namespace GameExport

variable {σ α : Type}

namespace Action

theorem outcome_during_eq_ok {activity : Activity} {a : Action σ Failure α} {s t : σ} {x : α} :
    (a.during activity).outcome s = (.ok x, t) ↔ a.outcome s = (.ok x, t) :=
  outcome_mapError_eq_ok

theorem outcome_during_eq_error {activity : Activity} {a : Action σ Failure α} {s t : σ}
    {e : Failure} :
    (a.during activity).outcome s = (.error e, t) ↔
      ∃ cause, a.outcome s = (.error cause, t) ∧ e = .during activity cause :=
  outcome_mapError_eq_error

theorem Moves.during {R : σ → σ → Prop} {a : Action σ Failure α} (ha : a.Moves R)
    (activity : Activity) : (a.during activity).Moves R :=
  ha.mapError

end Action

namespace Work

/-- Files are changed as the operation changes them, and the helper's record stays. -/
theorem outcome_files_eq_ok {a : Disk.Operation α} {s u : FileTree × σ} {x : α} :
    (files a).outcome s = (.ok x, u) ↔ ∃ t, a.outcome s.1 = (.ok x, t) ∧ u = (t, s.2) := by
  rw [files, Action.outcome_zoom_eq_ok]
  simp only [Action.outcome_mapError_eq_ok]

theorem outcome_files_eq_error {a : Disk.Operation α} {s u : FileTree × σ} {e : Failure} :
    (files a).outcome s = (.error e, u) ↔
      ∃ t cause, a.outcome s.1 = (.error cause, t) ∧ u = (t, s.2) ∧ e = .file cause := by
  simp only [files, Action.outcome_zoom_eq_error, Action.outcome_mapError_eq_error]
  constructor
  · rintro ⟨t, ⟨cause, h, rfl⟩, rfl⟩
    exact ⟨t, cause, h, rfl, rfl⟩
  · rintro ⟨t, cause, h, rfl, rfl⟩
    exact ⟨t, ⟨cause, h, rfl⟩, rfl⟩

variable {R : FileTree → FileTree → Prop}

/-- An operation on files moves a helper's state as far as it moves the files. -/
theorem files_moves {a : Disk.Operation α} (ha : a.Moves R) :
    (files a : Work σ α).Moves fun s u => R s.1 u.1 :=
  .zoom (fun _ _ h => h) ha.mapError

theorem note_moves (hrefl : ∀ t, R t t) (f : σ → σ) : (note f).Moves fun s u => R s.1 u.1 :=
  fun s => hrefl s.1

end Work

namespace Job

/-- An operation on files leaves the assemblies and the helper's record as they are. -/
theorem outcome_files_eq_ok {a : Disk.Operation α} {j k : Job σ} {x : α} :
    (files a).outcome j = (.ok x, k) ↔
      ∃ t, a.outcome j.tree = (.ok x, t) ∧ k = { j with tree := t } := by
  rw [files, Action.outcome_zoom_eq_ok]
  simp only [Action.outcome_mapError_eq_ok]

/-- A helper changes the files and its own record, and no assembly. -/
theorem outcome_help_eq_ok {a : Work σ α} {j k : Job σ} {x : α} :
    (help a).outcome j = (.ok x, k) ↔
      ∃ s, a.outcome (j.tree, j.own) = (.ok x, s) ∧ k = { j with tree := s.1, own := s.2 } := by
  rw [help, Action.outcome_zoom_eq_ok]

/-- A failed operation leaves the changes that it made before. -/
theorem outcome_files_eq_error {a : Disk.Operation α} {j k : Job σ} {e : Failure} :
    (files a).outcome j = (.error e, k) ↔
      ∃ t cause, a.outcome j.tree = (.error cause, t) ∧ k = { j with tree := t } ∧
        e = .file cause := by
  simp only [files, Action.outcome_zoom_eq_error, Action.outcome_mapError_eq_error]
  constructor
  · rintro ⟨t, ⟨cause, h, rfl⟩, rfl⟩
    exact ⟨t, cause, h, rfl, rfl⟩
  · rintro ⟨t, cause, h, rfl, rfl⟩
    exact ⟨t, ⟨cause, h, rfl⟩, rfl⟩

theorem outcome_help_eq_error {a : Work σ α} {j k : Job σ} {e : Failure} :
    (help a).outcome j = (.error e, k) ↔
      ∃ s, a.outcome (j.tree, j.own) = (.error e, s) ∧
        k = { j with tree := s.1, own := s.2 } := by
  rw [help, Action.outcome_zoom_eq_error]

/-! ## Growing -/

/-- Nothing has been taken away from the files, and the assemblies taken down have stayed. -/
structure Grows (j k : Job σ) : Prop where
  tree : FileTree.Grows j.tree k.tree
  descriptors : ∀ {name d}, j.descriptors.get? name = some d → k.descriptors.get? name = some d

theorem Grows.refl (j : Job σ) : Grows j j := ⟨.refl j.tree, id⟩

theorem Grows.trans {i j k : Job σ} (h : Grows i j) (g : Grows j k) : Grows i k :=
  ⟨h.tree.trans g.tree, fun hd => g.descriptors (h.descriptors hd)⟩

/-! ## How far a job goes -/

/-- The files have changed as a relation says, and all assemblies taken down since are good. -/
structure GoesOn (R : FileTree → FileTree → Prop) (good : Descriptor → Prop) (j k : Job σ) :
    Prop where
  tree : R j.tree k.tree
  descriptors : ∀ d ∈ k.descriptors.entries, d ∈ j.descriptors.entries ∨ good d

section GoesOn

variable {R : FileTree → FileTree → Prop} {good : Descriptor → Prop}

theorem GoesOn.refl (hrefl : ∀ t, R t t) (j : Job σ) : GoesOn R good j j :=
  ⟨hrefl j.tree, fun _ hd => Or.inl hd⟩

theorem GoesOn.trans (htrans : ∀ s t u, R s t → R t u → R s u) {i j k : Job σ}
    (h : GoesOn R good i j) (g : GoesOn R good j k) : GoesOn R good i k where
  tree := htrans _ _ _ h.tree g.tree
  descriptors := fun d hd => (g.descriptors d hd).elim (h.descriptors d) Or.inr

theorem files_goesOn {a : Disk.Operation α} (ha : a.Moves R) :
    (files a : Action (Job σ) Failure α).Moves (GoesOn R good) :=
  .zoom (fun _ _ h => ⟨h, fun _ hd => Or.inl hd⟩) ha.mapError

theorem help_goesOn {a : Work σ α} (ha : a.Moves fun s u => R s.1 u.1) :
    (help a).Moves (GoesOn R good) :=
  .zoom (fun _ _ h => ⟨h, fun _ hd => Or.inl hd⟩) ha

/-- Taking down a good assembly goes on, and leaves the files alone. -/
theorem takeDown_goesOn (hrefl : ∀ t, R t t) {name : String} {directory : Path}
    (hgood : good ⟨name, directory⟩) :
    (takeDown name directory : Action (Job σ) Failure Unit).Moves (GoesOn R good) := by
  intro j
  refine ⟨hrefl j.tree, fun d hd => ?_⟩
  rcases DescriptorMap.mem_entries_tryAdd hd with hold | rfl
  · exact Or.inl hold
  · exact Or.inr hgood

end GoesOn

end Job

end GameExport
