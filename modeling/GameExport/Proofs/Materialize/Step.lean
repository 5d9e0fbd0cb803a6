import GameExport.Proofs.Disk.Operations
import GameExport.Proofs.Job
import GameExport.Proofs.Script.Paths

/-! # What giving files to one script does

A script keeps the files that it has, and the ones that it lacks are written. Either way it has its
files afterwards, and nothing has been taken away, so it keeps having them.
-/

namespace GameExport

open GameExport.Path FileTree

variable {σ : Type}

/-! ## Reports -/

namespace ScriptReport

@[simp] theorem stubsWritten_append (r s : ScriptReport) :
    (r ++ s).stubsWritten = r.stubsWritten ++ s.stubsWritten := rfl

@[simp] theorem existing_append (r s : ScriptReport) :
    (r ++ s).existing = r.existing ++ s.existing := rfl

@[simp] theorem handedOff_append (r s : ScriptReport) :
    (r ++ s).handedOff = r.handedOff ++ s.handedOff := rfl

@[simp] theorem conflicts_append (r s : ScriptReport) :
    (r ++ s).conflicts = r.conflicts ++ s.conflicts := rfl

@[simp] theorem skippedEngine_append (r s : ScriptReport) :
    (r ++ s).skippedEngine = r.skippedEngine + s.skippedEngine := rfl

theorem append_empty (r : ScriptReport) : r ++ ({} : ScriptReport) = r := by
  show append r {} = r
  simp [append]

theorem empty_append (r : ScriptReport) : ({} : ScriptReport) ++ r = r := by
  show append {} r = r
  simp [append]

theorem append_assoc (r s t : ScriptReport) : r ++ s ++ t = r ++ (s ++ t) := by
  show append (append r s) t = append r (append s t)
  simp [append, Nat.add_assoc]

end ScriptReport

/-! ## Metadata writers -/

/-- A writer that leaves a metadata file beside the file that it is given and nothing else. -/
def MetadataWriter.CreatesOnly (w : MetadataWriter σ) : Prop :=
  ∀ s file t u, (w s file).outcome t = (.ok (), u) →
    u.1.isFile (Metadata.path file) ∧ ∃ content executable,
      Puts t.1 (t.1.place (Metadata.path file)) (.file content executable) u.1

theorem MetadataWriter.createsOnly_ofGuids (draw : Nat → Guid) : (ofGuids draw).CreatesOnly := by
  intro s file t u h
  unfold ofGuids at h
  obtain ⟨record, t₁, hask, h⟩ := Action.outcome_bind_eq_ok.mp h
  obtain ⟨_, t₂, hdraw, h⟩ := Action.outcome_bind_eq_ok.mp h
  obtain ⟨_, t₃, hwrite, hcount⟩ := Action.outcome_bind_eq_ok.mp h
  obtain ⟨-, rfl⟩ := Prod.mk.inj hask
  obtain ⟨-, rfl⟩ := Prod.mk.inj hdraw
  obtain ⟨-, rfl⟩ := Prod.mk.inj hcount
  rw [Action.outcome_during_eq_ok, Work.outcome_files_eq_ok] at hwrite
  obtain ⟨v, hwrite, rfl⟩ := hwrite
  obtain ⟨hfile, -, hputs⟩ := Disk.write_eq_ok hwrite
  exact ⟨hfile, _, _, hputs⟩

namespace ScriptAsset

variable {s : ScriptAsset} {root : Path}

/-! ## The source file -/

/-- The placeholder of a script is written, and the directories on its way are made. -/
abbrev WritesStub (s : ScriptAsset) (root : Path) (t u : FileTree) : Prop :=
  t.Places (root.join s.target.folder) (s.file root) (Stub.source s.ns s.className).toUTF8 u

/-- A script that has a file keeps it. Otherwise its placeholder is written and its assembly is
taken down. -/
theorem ensureSource_eq_ok {j k : Job σ} {r : ScriptReport}
    (h : (s.ensureSource root).outcome j = (.ok r, k)) :
    (j.tree.contains (s.file root) ∧ r = { existing := [s.file root] } ∧ k = j) ∨
      (j.tree.contains (s.file root) = false ∧ r = { stubsWritten := [s.file root] } ∧
        s.WritesStub root j.tree k.tree ∧
        k.descriptors = (j.descriptors.tryAdd s.assembly (Stub.directory root s.assembly)).2) := by
  unfold ensureSource at h
  rw [Action.outcome_ask_bind] at h
  split at h
  · next hyes =>
      obtain ⟨hr, rfl⟩ := Prod.mk.inj h
      exact Or.inl ⟨hyes, (Except.ok.inj hr).symm, rfl⟩
  · next hno =>
      obtain ⟨_, j₂, hfolder, h⟩ := Action.outcome_bind_eq_ok.mp h
      obtain ⟨_, j₃, hfile, h⟩ := Action.outcome_bind_eq_ok.mp h
      obtain ⟨_, j₄, htake, h⟩ := Action.outcome_bind_eq_ok.mp h
      rw [Action.outcome_during_eq_ok, Job.outcome_files_eq_ok] at hfolder hfile
      obtain ⟨v, hfolder, rfl⟩ := hfolder
      obtain ⟨u, hfile, rfl⟩ := hfile
      obtain ⟨-, rfl⟩ := Prod.mk.inj htake
      obtain ⟨hr, rfl⟩ := Prod.mk.inj h
      refine Or.inr ⟨by simpa using hno, (Except.ok.inj hr).symm, ?_, rfl⟩
      exact Disk.places_of_eq_ok hfolder hfile

/-! ## The metadata file -/

/-- A script that has metadata keeps it. Otherwise the writer puts a file where nothing was. -/
theorem ensureMetadata_eq_ok {w : MetadataWriter σ} (hw : w.CreatesOnly) {j k : Job σ}
    {r : ScriptReport} (h : (s.ensureMetadata root w).outcome j = (.ok r, k)) :
    (j.tree.contains (Metadata.path (s.file root)) ∧ r = { conflicts := [s.file root] } ∧ k = j) ∨
      (j.tree.contains (Metadata.path (s.file root)) = false ∧ r = { handedOff := [s.file root] } ∧
        k.descriptors = j.descriptors ∧ k.tree.isFile (Metadata.path (s.file root)) ∧
        j.tree.get? (j.tree.place (Metadata.path (s.file root))) = none ∧
        ∃ content executable, Puts j.tree (j.tree.place (Metadata.path (s.file root)))
          (.file content executable) k.tree) := by
  unfold ensureMetadata at h
  rw [Action.outcome_ask_bind] at h
  split at h
  · next hyes =>
      obtain ⟨hr, rfl⟩ := Prod.mk.inj h
      exact Or.inl ⟨hyes, (Except.ok.inj hr).symm, rfl⟩
  · next hno =>
      obtain ⟨_, j₂, hwrite, h⟩ := Action.outcome_bind_eq_ok.mp h
      rw [Action.outcome_during_eq_ok, Job.outcome_help_eq_ok] at hwrite
      obtain ⟨v, hwrite, rfl⟩ := hwrite
      obtain ⟨hr, rfl⟩ := Prod.mk.inj h
      obtain ⟨hfile, c, x, hputs⟩ := hw s _ _ v hwrite
      have hnone : ¬ (j.tree.get? (j.tree.place (Metadata.path (s.file root)))).isSome :=
        fun hsome => hno (contains_of_puts hputs hfile hsome)
      refine Or.inr ⟨by simpa using hno, (Except.ok.inj hr).symm, rfl, hfile, ?_, c, x, hputs⟩
      simpa using hnone

/-! ## Reaching the output root -/

theorem steps_file (s : ScriptAsset) (root : Path) :
    (s.file root).steps =
      root.steps ++ (s.folderNames.map .name ++ [.name s.target.fileName]) := by
  rw [file_eq_join, steps_join _ s.isName_fileName.not_isAbsolute, s.isName_fileName.steps_eq,
    steps_descend root fun n hn => isName_of_mem_folderNames hn, List.append_assoc]

/-- Where the file of a script can be found, the output root leads through directories. -/
theorem directory_of_contains_file {t : FileTree} (h : t.contains (s.file root)) {m : Location}
    (hm : m ∈ t.way root) : t.get? m = some .directory := by
  obtain ⟨hreaches, -⟩ := contains_iff.mp h
  obtain ⟨before, after, hsteps, hne, rfl⟩ := Component.mem_way_iff.mp hm
  have hrest : after ++ (s.folderNames.map .name ++ [.name s.target.fileName]) ≠ [] := by simp
  obtain ⟨c, rest, hc⟩ := List.exists_cons_of_ne_nil hrest
  have hbefore : (s.file root).steps = before ++ c :: rest := by
    rw [steps_file, hsteps, List.append_assoc, hc]
  exact hreaches.directory hbefore hne

/-- Below an output root that leads through directories, a folder in which something stands leads
through directories. -/
theorem directory_of_mem_way_folder {t : FileTree} {n : String}
    (hroot : ∀ m ∈ t.way root, t.get? m = some .directory)
    (hsome : (t.get? (n :: (s.folderNames.reverse ++ t.place root))).isSome) {m : Location}
    (hm : m ∈ t.way (root.join s.target.folder)) : t.get? m = some .directory := by
  rw [FileTree.way, join_folder,
    mem_way_descend root t.workingDirectory fun k hk => isName_of_mem_folderNames hk] at hm
  rcases hm with hm | ⟨before, ⟨after, hafter⟩, -, rfl⟩
  · exact hroot m hm
  · obtain ⟨e, he⟩ := Option.isSome_iff_exists.mp hsome
    refine get?_of_suffix he ⟨n :: after.reverse, ?_⟩ fun heq => ?_
    · rw [← hafter, List.reverse_append, List.cons_append, List.append_assoc]
      rfl
    · have hlength := congrArg List.length heq
      rw [← hafter] at hlength
      simp [FileTree.place] at hlength
      omega

/-- Below an output root that leads through directories, a placeholder is only written where
nothing is. -/
theorem contains_of_writesStub {t u : FileTree} (hwrites : s.WritesStub root t u)
    (hroot : ∀ m ∈ t.way root, t.get? m = some .directory)
    (hsome : (t.get? (t.place (s.file root))).isSome) : t.contains (s.file root) := by
  apply hwrites.visible ?_ hsome
  intro m hm
  rw [FileTree.place, place_file] at hsome
  exact directory_of_mem_way_folder hroot hsome hm

/-- An output root that can climb leads through directories to whatever is below it. -/
theorem directory_of_canClimb {t : FileTree} (hclimb : t.CanClimb root)
    (hsome : (t.get? (t.place (s.file root))).isSome) {m : Location} (hm : m ∈ t.way root) :
    t.get? m = some .directory := by
  by_cases hsuffix : m <:+ t.place root
  · rw [FileTree.place, place_file] at hsome
    obtain ⟨e, he⟩ := Option.isSome_iff_exists.mp hsome
    refine get?_of_suffix he ?_ fun heq => ?_
    · exact hsuffix.trans ((List.suffix_append _ _).trans (List.suffix_cons _ _))
    · have hlength := hsuffix.length_le
      rw [heq, List.length_cons, List.length_append] at hlength
      rw [FileTree.place] at hlength
      omega
  · exact hclimb.directory hm hsuffix

/-! ## Both files -/

/-- Scripts of the engine are passed over. -/
theorem materialize_of_isEngine (h : s.isEngine) (w : Option (MetadataWriter σ)) :
    s.materialize root w = pure { skippedEngine := 1 } := by
  rw [materialize, if_pos h]

/-- The source file comes first, and then the metadata if they are written. -/
theorem materialize_eq_ok {w : Option (MetadataWriter σ)} {j k : Job σ} {r : ScriptReport}
    (hengine : s.isEngine = false) (h : (s.materialize root w).outcome j = (.ok r, k)) :
    ∃ source i, (s.ensureSource root).outcome j = (.ok source, i) ∧
      (w = none ∧ r = source ∧ k = i ∨
        ∃ v metadata, w = some v ∧ (s.ensureMetadata root v).outcome i = (.ok metadata, k) ∧
          r = source ++ metadata) := by
  rw [materialize, if_neg (by simp [hengine])] at h
  obtain ⟨source, i, hsource, h⟩ := Action.outcome_bind_eq_ok.mp h
  refine ⟨source, i, hsource, ?_⟩
  cases w with
  | none =>
      obtain ⟨hr, rfl⟩ := Prod.mk.inj h
      exact Or.inl ⟨rfl, (Except.ok.inj hr).symm, rfl⟩
  | some v =>
      obtain ⟨metadata, k', hmetadata, h⟩ := Action.outcome_bind_eq_ok.mp h
      obtain ⟨hr, rfl⟩ := Prod.mk.inj h
      exact Or.inr ⟨v, metadata, rfl, hmetadata, (Except.ok.inj hr).symm⟩

structure HasFiles (s : ScriptAsset) (root : Path) (withMetadata : Bool) (t : FileTree) : Prop where
  source : t.contains (s.file root)
  metadata : withMetadata → t.contains (Metadata.path (s.file root))

/-- Files that are there stay there. -/
theorem HasFiles.of_grows {withMetadata : Bool} {t u : FileTree}
    (h : s.HasFiles root withMetadata t) (hgrows : Grows t u) : s.HasFiles root withMetadata u :=
  ⟨hgrows.contains h.source, fun hwith => hgrows.contains (h.metadata hwith)⟩

/-- A script has its source afterwards, and nothing was taken away for it. -/
theorem ensureSource_grows {j k : Job σ} {r : ScriptReport}
    (h : (s.ensureSource root).outcome j = (.ok r, k)) :
    j.Grows k ∧ k.tree.contains (s.file root) ∧ r.skippedEngine = 0 := by
  rcases ensureSource_eq_ok h with ⟨hfound, rfl, rfl⟩ | ⟨-, rfl, hwrites, hdescriptors⟩
  · exact ⟨.refl _, hfound, rfl⟩
  · refine ⟨⟨hwrites.grows, fun hd => ?_⟩, contains_of_isFile hwrites.isFile, rfl⟩
    rw [hdescriptors]
    exact DescriptorMap.get?_tryAdd_of_some hd _ _

theorem ensureMetadata_grows {w : MetadataWriter σ} (hw : w.CreatesOnly) {j k : Job σ}
    {r : ScriptReport} (h : (s.ensureMetadata root w).outcome j = (.ok r, k)) :
    j.Grows k ∧ k.tree.contains (Metadata.path (s.file root)) ∧ r.skippedEngine = 0 := by
  rcases ensureMetadata_eq_ok hw h with
    ⟨hfound, rfl, rfl⟩ | ⟨-, rfl, hdescriptors, hfile, hnone, c, x, hputs⟩
  · exact ⟨.refl _, hfound, rfl⟩
  · refine ⟨⟨hputs.grows ?_ ?_, fun hd => ?_⟩, contains_of_isFile hfile, rfl⟩
    · rw [hnone]
      exact nofun
    · intro d y hy
      rw [hnone] at hy
      cases hy
    · rw [hdescriptors, hd]

/-- A script has its files afterwards, and nothing has been taken away. -/
theorem materialize_grows {w : Option (MetadataWriter σ)} (hw : ∀ v ∈ w, v.CreatesOnly)
    {j k : Job σ} {r : ScriptReport} (hengine : s.isEngine = false)
    (h : (s.materialize root w).outcome j = (.ok r, k)) :
    j.Grows k ∧ s.HasFiles root w.isSome k.tree ∧ r.skippedEngine = 0 := by
  obtain ⟨source, i, hsource, h⟩ := materialize_eq_ok hengine h
  obtain ⟨hgrows, hfile, hskipped⟩ := ensureSource_grows hsource
  rcases h with ⟨rfl, rfl, rfl⟩ | ⟨v, metadata, rfl, hmetadata, rfl⟩
  · exact ⟨hgrows, ⟨hfile, nofun⟩, hskipped⟩
  · obtain ⟨hgrows', hmeta, hskipped'⟩ := ensureMetadata_grows (hw v rfl) hmetadata
    refine ⟨hgrows.trans hgrows', ⟨hgrows'.tree.contains hfile, fun _ => hmeta⟩, ?_⟩
    rw [ScriptReport.skippedEngine_append, hskipped, hskipped']

/-- A script that has both files is only reported, whatever the metadata writer would do. -/
theorem materialize_of_hasFiles {j : Job σ} (hengine : s.isEngine = false)
    (h : s.HasFiles root true j.tree) (w : MetadataWriter σ) :
    (s.materialize root (some w)).outcome j =
      (.ok { existing := [s.file root], conflicts := [s.file root] }, j) := by
  have hsource : (s.ensureSource root).outcome j = (.ok { existing := [s.file root] }, j) := by
    unfold ensureSource
    rw [Action.outcome_ask_bind, if_pos h.source, Action.outcome_pure]
  have hmetadata : (s.ensureMetadata root w).outcome j =
      (.ok { conflicts := [s.file root] }, j) := by
    unfold ensureMetadata
    rw [Action.outcome_ask_bind, if_pos (h.metadata rfl), Action.outcome_pure]
  rw [materialize, if_neg (by simp [hengine])]
  refine Action.outcome_bind_eq_ok.mpr ⟨_, j, hsource, ?_⟩
  exact Action.outcome_bind_eq_ok.mpr ⟨_, j, hmetadata, rfl⟩

end ScriptAsset

end GameExport
