import GameExport.CommandLine.Run
import GameExport.Proofs.Disk.Visits
import GameExport.Proofs.Export.Families
import GameExport.Proofs.Export.Totals
import GameExport.Proofs.Staging.Unpack
import GameExport.Proofs.Workspace

/-! # Exporting from the command line

An export opens a workspace, stages the inputs of its manifest, exports, and closes the workspace
again. Each stage leaves the files of the stages before it as they are. Closing removes whatever
stands in the workspace, so what an export reports is there at last exactly if its path does not
lead through the workspace.
-/

namespace GameExport

open GameExport.Path FileTree

/-! ## What clearing a workspace spares -/

/-- Nothing is new, but something may be gone. -/
structure FileTree.Loses (t u : FileTree) : Prop where
  workingDirectory : u.workingDirectory = t.workingDirectory
  get? : ∀ m, u.get? m = t.get? m ∨ u.get? m = none

theorem FileTree.Loses.refl (t : FileTree) : Loses t t := ⟨rfl, fun _ => Or.inl rfl⟩

theorem FileTree.Loses.trans {t u v : FileTree} (h : Loses t u) (k : Loses u v) : Loses t v := by
  refine ⟨k.workingDirectory.trans h.workingDirectory, fun m => ?_⟩
  rcases k.get? m with heq | hnone
  · rw [heq]
    exact h.get? m
  · exact Or.inr hnone

/-- Removing an empty directory loses at most that. -/
theorem Disk.removeEmpty_loses (p : Path) : (removeEmpty p).Moves Loses := by
  intro t
  unfold removeEmpty
  rcases locateParent_cases t p with
    ⟨e, hlocate⟩ | ⟨l, c, hlocate, hname⟩ | ⟨l, name, hlocate, -⟩
  · simp only [Action.outcome_bind, outcome_look, hlocate]
    exact .refl t
  · cases c with
    | name n => exact absurd rfl (hname n)
    | _ =>
        simp only [Action.outcome_bind, outcome_look, hlocate, Action.outcome_throw]
        exact .refl t
  · simp only [Action.outcome_bind, outcome_look, hlocate, Action.outcome_of]
    refine ⟨rfl, fun m => ?_⟩
    cases m with
    | nil => exact Or.inl rfl
    | cons n m =>
        rw [get?_removeAt _ _ (by simp)]
        split
        · exact Or.inr rfl
        · exact Or.inl rfl

/-- Of what stood in a directory nothing is left, and the directory itself is gone or empty. -/
theorem Disk.removeDirectory_loses {p : Path} {t u : FileTree} {x : Unit}
    (h : (removeDirectory p).outcome t = (.ok x, u)) :
    t.isDirectory p ∧ Loses (t.emptyAt (t.place p)) u := by
  have hdirectory : t.isDirectory p := by
    by_contra hnot
    obtain ⟨e, he⟩ := removeDirectory_of_not_isDirectory hnot
    rw [he] at h
    cases h
  have hrest : Action.Moves Loses (tryCatch (removeEmpty p) fun e =>
      if e = FileError.notFound then pure () else throw e) := by
    refine .tryCatch (fun _ _ _ h k => h.trans k) (removeEmpty_loses p) fun e => ?_
    split
    · exact .pure Loses.refl ()
    · exact .throw Loses.refl e
  have hmoves := hrest (t.emptyAt (t.place p))
  rw [← outcome_removeDirectory hdirectory, h] at hmoves
  exact ⟨hdirectory, hmoves⟩

/-- A path does not lead through what is removed with the directory of another path. -/
def FileTree.Spares (t u : FileTree) (root p : Path) : Prop :=
  t.contains root → ∀ m ∈ t.visits p, t.place root <:+ m →
    m = t.place root ∧ u.get? m = some .directory

namespace Workspace

variable {root p : Path} {t u : FileTree} {x : Unit}

/-- Clearing a workspace changes nothing along a path that does not lead through it. -/
theorem find?_of_spares (h : (clear root).outcome t = (.ok x, u)) (hspares : t.Spares u root p)
    {e : Entry} (hp : t.find? p = some e) : u.find? p = some e := by
  have hchange := clear_moves root t
  rw [h] at hchange
  refine find?_of_agree_visits hp hchange.workingDirectory fun m hm => ?_
  by_cases hbelow : t.place root <:+ m
  · rw [outcome_clear] at h
    split at h
    · next hfound =>
        obtain ⟨rfl, hkept⟩ := hspares hfound m hm hbelow
        rw [hkept, (isDirectory_iff.mp (Disk.removeDirectory_loses h).1).2]
    · obtain ⟨-, rfl⟩ := Prod.mk.inj h
      rfl
  · exact (hchange.outside m hbelow).resolve_right fun hmade => hmade.1

/-- What could be found before a workspace is cleared is found afterwards exactly if its path does
not lead through the workspace. -/
theorem contains_clear_iff (h : (clear root).outcome t = (.ok x, u)) (hp : t.contains p) :
    u.contains p ↔ t.Spares u root p := by
  constructor
  · intro hafter hfound m hm hbelow
    rw [outcome_clear, if_pos hfound] at h
    obtain ⟨hdirectory, hloses⟩ := Disk.removeDirectory_loses h
    have hthere : (u.get? m).isSome := by
      refine isSome_of_mem_visits hafter ?_
      rwa [FileTree.visits, hloses.workingDirectory]
    have hsame := (hloses.get? m).resolve_right fun hnone => by
      rw [hnone] at hthere
      cases hthere
    by_cases heq : m = t.place root
    · refine ⟨heq, ?_⟩
      rw [hsame, get?_emptyAt_of_not_below t fun _ => heq, heq]
      exact (isDirectory_iff.mp hdirectory).2
    · have hne : m ≠ [] := by
        rintro rfl
        exact heq (List.suffix_nil.mp hbelow).symm
      rw [hsame, get?_emptyAt _ _ hne, if_pos ⟨hbelow, heq⟩] at hthere
      cases hthere
  · intro hspares
    obtain ⟨e, he⟩ := Option.isSome_iff_exists.mp hp
    rw [contains, find?_of_spares h hspares he]
    rfl

/-- A file is still there after clearing exactly if its path leads around what was cleared. -/
theorem isFile_clear_iff (h : (clear root).outcome t = (.ok x, u)) (hp : t.isFile p) :
    u.isFile p ↔ t.Spares u root p := by
  constructor
  · intro hafter
    exact (contains_clear_iff h (contains_of_isFile hp)).mp (contains_of_isFile hafter)
  · intro hspares
    unfold FileTree.isFile at hp ⊢
    cases hfind : t.find? p with
    | none => simp [hfind] at hp
    | some e =>
        rw [find?_of_spares h hspares hfind]
        rwa [hfind] at hp

/-- A path below an output that is apart from a workspace does not lead through the workspace. -/
theorem spares_of_apart {output : Path} {names : List String} (hnames : ∀ n ∈ names, IsName n)
    (hvisits : ∀ m ∈ t.visits output, ¬ t.place root <:+ m)
    (habove : ¬ t.place output <:+ t.place root) : t.Spares u root (output.descend names) := by
  intro _ m hm hbelow
  rcases mem_visits_descend hnames hm with hm | houtput
  · exact absurd hbelow (hvisits m hm)
  · rcases List.suffix_or_suffix_of_suffix hbelow houtput with hinside | hroot
    · exact absurd hinside (hvisits _ (t.place_mem_visits output))
    · exact absurd hroot habove

end Workspace

namespace CommandLine

variable {δ μ ω : Type}

/-! ## The stages of an export -/

inductive StagedExportError where
  | staging (e : StageError)
  | exporting (e : ExportError)

/-- What an export does in its workspace: it stages the inputs of the manifest, finds the assemblies
among them, and exports. It ends with the totals and with the records of the helpers. -/
def exportStaged (x : Exporter δ μ ω) (w : Workspace) (m : Manifest) (settings : DecompileSettings)
    (version : Version) (output : Path) (decompiler : δ) (metadata : μ) (definitions : ω) :
    Action Stage StagedExportError (ExportSummary × ExportState δ μ ω) := do
  let staged ← (w.stage m.inputs).mapError .staging
  let assemblies ← Action.ask fun s : Stage => m.resolveAssemblies s.tree staged
  .of fun s =>
    let (result, u) := (x.exportAll ⟨m.assets, assemblies, settings, version⟩ output).outcome
      { tree := s.tree, decompiler, metadata, definitions }
    ((result.map (·, u)).mapError .exporting, { s with tree := u.tree })

def exporter (e : Environment) (program : String) (withMetadata : Bool) :
    Exporter Unit GuidRecord (List Path) :=
  ⟨Decompiler.ofProgram e.runProgram program,
    if withMetadata then some (.ofGuids e.guid) else none, AssemblyDefinition.writer⟩

def Report.ofStagedExportError : StagedExportError → Report
  | .staging e => ofStageError e
  | .exporting e => (ofExportError e).within "Script export failed"

/-- An export on the command line is one with the helpers of the command line and empty records. -/
theorem outcome_exportWith {e : Environment} {program : String} {withMetadata : Bool}
    {r : ExportRequest} {output : Path} {t : FileTree} {result : Except ExportError ExportSummary}
    {u : ExportState Unit GuidRecord (List Path)}
    (h : ((exporter e program withMetadata).exportAll r output).outcome
      { tree := t, decompiler := (), metadata := {}, definitions := [] } = (result, u)) :
    (exportWith e program withMetadata r output).outcome t =
      (result.map fun summary => (summary, u.metadata.written), u.tree) := by
  unfold exportWith
  unfold exporter at h
  simp only [Action.outcome_of, h]

/-- An export reads its configuration and its manifest, opens a workspace, does its stages in it,
and closes it. -/
theorem outcome_exportScripts (e : Environment) (i : Invocation) (manifest output : Path)
    (withMetadata : Bool) (s : Stage) :
    (exportScripts e i manifest output withMetadata).outcome s = Action.outcome (do
      let config ← loadConfig i.config
      let m ← Task.find Report.ofFailure fun t => Manifest.load t manifest
      let workspace ← prepareWorkspace e config i.workspace
      let (summary, records) ← (exportStaged (exporter e config.decompilerCommand withMetadata)
        workspace m config.settings config.exportVersion output () {} []).mapError
          Report.ofStagedExportError
      Task.files (fun x => (Report.ofFileError x).within "Failed to clean up workspace")
        workspace.close
      pure (summaryLines output summary records.metadata.written)) s := by
  unfold exportScripts exportStaged
  simp only [Action.outcome_bind, Action.outcome_mapError]
  -- both sides go the same way, so they are compared where one of them could end
  split
  · next config s₁ _ =>
      split
      · next m s₂ _ =>
          split
          · next w s₃ _ =>
              rcases hstage : (w.stage m.inputs).outcome s₃ with ⟨staged, s₄⟩
              cases staged with
              | error => rfl
              | ok staged =>
                  rcases hexport : ((exporter e config.decompilerCommand withMetadata).exportAll
                    ⟨m.assets, m.resolveAssemblies s₄.tree staged, config.settings,
                      config.exportVersion⟩ output).outcome
                    { tree := s₄.tree, decompiler := (), metadata := {}, definitions := [] } with
                    ⟨result, u⟩
                  have hok {ε ε' : Type} (f : ε → ε') :
                      (Except.ok staged).mapError f = .ok staged := rfl
                  simp only [hok, Action.outcome_ask, Task.files, Action.outcome_zoom,
                    Action.outcome_mapError, outcome_exportWith hexport, hexport, Action.outcome_of]
                  cases result <;> rfl
          · rfl
      · rfl
  · rfl

end CommandLine

/-! ## What an export reports -/

namespace ScriptAsset

variable {root : Path} {σ : Type} {w : Option (MetadataWriter σ)} {s : ScriptAsset} {j k : Job σ}
  {r : ScriptReport}

/-- A script is reported by its file. -/
theorem eq_file_of_reported (hw : ∀ v ∈ w, v.CreatesOnly) (hengine : s.isEngine = false)
    (h : (s.materialize root w).outcome j = (.ok r, k)) {p : Path}
    (hp : p ∈ r.stubsWritten ++ r.existing) : p = s.file root := by
  obtain ⟨source, i, hsource, h⟩ := materialize_eq_ok hengine h
  have hfirst (hp : p ∈ source.stubsWritten ++ source.existing) : p = s.file root := by
    rcases ensureSource_eq_ok hsource with ⟨-, rfl, -⟩ | ⟨-, rfl, -⟩ <;> simpa using hp
  rcases h with ⟨-, rfl, -⟩ | ⟨v, metadata, rfl, hmetadata, rfl⟩
  · exact hfirst hp
  · rcases ensureMetadata_eq_ok (hw v rfl) hmetadata with ⟨-, rfl, -⟩ | ⟨-, rfl, -⟩ <;>
      exact hfirst (by simpa using hp)

end ScriptAsset

/-- A pass reports the files of scripts of the game. -/
theorem exists_file_of_reported {root : Path} {σ : Type} {w : Option (MetadataWriter σ)}
    (hw : ∀ v ∈ w, v.CreatesOnly) {ss : List ScriptAsset} {j k : Job σ} {r : ScriptReport}
    (h : (materialize root w ss).outcome j = (.ok r, k)) {p : Path}
    (hp : p ∈ r.stubsWritten ++ r.existing) :
    ∃ s ∈ ss, s.isEngine = false ∧ p = s.file root := by
  induction ss generalizing j r with
  | nil =>
      obtain ⟨hr, -⟩ := Prod.mk.inj h
      cases hr
      cases hp
  | cons s ss ih =>
      obtain ⟨first, i, rest, hfirst, hrest, rfl⟩ := materialize_cons_eq_ok.mp h
      have hsplit : p ∈ first.stubsWritten ++ first.existing ∨
          p ∈ rest.stubsWritten ++ rest.existing := by
        simp only [ScriptReport.stubsWritten_append, ScriptReport.existing_append,
          List.mem_append] at hp ⊢
        tauto
      cases hengine : s.isEngine with
      | true =>
          rw [s.materialize_of_isEngine hengine] at hfirst
          cases (Prod.mk.inj hfirst).1
          obtain ⟨v, hv, hfile⟩ := ih hrest (hsplit.resolve_left (by simp))
          exact ⟨v, List.mem_cons_of_mem s hv, hfile⟩
      | false =>
          rcases hsplit with hp | hp
          · exact ⟨s, List.mem_cons_self, hengine, s.eq_file_of_reported hw hengine hfirst hp⟩
          · obtain ⟨v, hv, hfile⟩ := ih hrest hp
            exact ⟨v, List.mem_cons_of_mem s hv, hfile⟩

/-- A path goes on below a root by names. -/
def Path.GoesBelow (root p : Path) : Prop :=
  ∃ names, (∀ n ∈ names, IsName n) ∧ p = root.descend names

/-- Every source file is reached by names from the root. -/
theorem ScriptAsset.goesBelow_file (s : ScriptAsset) (root : Path) :
    root.GoesBelow (s.file root) := by
  refine ⟨(ExportedFile.source s).names, ExportedFile.isName_of_mem_names, ?_⟩
  exact ExportedFile.path_eq root (.source s)

theorem Descriptor.IsPlaced.goesBelow_path {root : Path} {d : Descriptor} (h : d.IsPlaced root) :
    root.GoesBelow (AssemblyDefinition.path d) := by
  obtain ⟨folder, hfolder, hdirectory⟩ := h
  exact ⟨_, AssemblyDefinition.isName_of_mem_path hfolder, AssemblyDefinition.path_eq hdirectory⟩

namespace Exporter

variable {δ μ : Type} {e : Exporter δ μ (List Path)} {s u : ExportState δ μ (List Path)}
  {r : ExportRequest} {root : Path} {summary : ExportSummary}

/-- All assemblies that an export takes down are placed below its output root. -/
theorem isPlaced_of_exportAll (hs : s.descriptors = {})
    (h : (e.exportAll r root).outcome s = (.ok summary, u)) :
    ∀ d ∈ u.descriptors.entries, d.IsPlaced root := by
  obtain ⟨-, decompiled, j, scripts, k, definitions, v, hrun, hpass, -, -, rfl⟩ :=
    exportAll_eq_ok.mp h
  have hfirst : (e.decompiler.run root r.settings r.assemblies).Moves
      (Job.GoesOn (fun _ _ => True) (·.IsPlaced root)) :=
    Decompiler.run_goesOn (fun _ => trivial) (fun _ _ _ _ _ => trivial) (fun _ _ => trivial)
      (fun _ _ _ => trivial) (ManagedAssembly.isPlaced_directory root) _
  have hsecond : (materialize root e.metadata (Asset.scripts r.assets)).Moves
      (Job.GoesOn (fun _ _ => True) (·.IsPlaced root)) :=
    materialize_goesOn (fun _ => trivial) (fun _ _ _ _ _ => trivial) (fun _ _ => trivial)
      (fun _ _ => trivial) (fun _ _ _ _ => trivial) (Stub.isPlaced_directory root) _
  have hdecompiled := hfirst ⟨s.tree, s.descriptors, s.decompiler⟩
  have hgiven := hsecond ⟨j.tree, j.descriptors, s.metadata⟩
  rw [hrun] at hdecompiled
  rw [hpass] at hgiven
  intro d hd
  rcases hgiven.descriptors d hd with hd | hplaced
  · refine (hdecompiled.descriptors d hd).resolve_left ?_
    rw [hs]
    exact List.not_mem_nil
  · exact hplaced

/-- Definitions that are recorded are there, and nothing has been taken away. -/
theorem emit_recorded {version : Version} {m : DescriptorMap}
    (hm : ∀ d ∈ m.entries, d.IsPlaced root) {t : FileTree} {v : FileTree × List Path} {n : Nat}
    (h : (AssemblyDefinition.writer.emit (AssemblyDefinition.supportedBy version) m).outcome
      (t, []) = (.ok n, v)) :
    Grows t v.1 ∧ ∀ p ∈ v.2, v.1.isFile p ∧ root.GoesBelow p := by
  by_cases hsupported : AssemblyDefinition.supportedBy version
  · rw [DefinitionWriter.emit_of_supported _ _ hsupported] at h
    have hdefined : ∀ d ∈ m.defined, d.IsPlaced root :=
      fun d hd => hm d (List.mem_of_mem_filter hd)
    obtain ⟨-, hrecord, hwrites⟩ := AssemblyDefinition.writeAll_eq_ok h
    refine ⟨hwrites.grows, fun p hp => ?_⟩
    rw [hrecord, List.nil_append] at hp
    obtain ⟨d, hd, rfl⟩ := List.mem_map.mp hp
    exact ⟨hwrites.isFile d hd, (hdefined d hd).goesBelow_path⟩
  · rw [DefinitionWriter.emit_of_not_supported _ _ hsupported] at h
    obtain ⟨-, rfl⟩ := Prod.mk.inj h
    exact ⟨.refl t, List.forall_mem_nil _⟩

/-- What an export reports and records is there when it ends, below its output root. -/
theorem exportAll_reported (hw : ∀ v ∈ e.metadata, v.CreatesOnly)
    (hdefinitions : e.definitions = AssemblyDefinition.writer) (hs : s.descriptors = {})
    (hfresh : s.definitions = []) (h : (e.exportAll r root).outcome s = (.ok summary, u)) :
    (∀ p ∈ summary.scripts.stubsWritten ++ summary.scripts.existing,
      u.tree.contains p ∧ root.GoesBelow p) ∧
    ∀ p ∈ u.definitions, u.tree.isFile p ∧ root.GoesBelow p := by
  have hplaced := isPlaced_of_exportAll hs h
  obtain ⟨-, decompiled, j, scripts, k, definitions, v, -, hpass, hemit, rfl, rfl⟩ :=
    exportAll_eq_ok.mp h
  rw [hdefinitions, hfresh] at hemit
  obtain ⟨-, hfiles, -⟩ := materialize_grows hw hpass
  obtain ⟨hgrows, hrecorded⟩ := emit_recorded hplaced hemit
  refine ⟨fun p hp => ?_, hrecorded⟩
  obtain ⟨v, hv, hengine, hfile⟩ := exists_file_of_reported hw hpass hp
  have hsource := (hfiles v hv hengine).source
  rw [hfile]
  exact ⟨hgrows.contains hsource, v.goesBelow_file root⟩

end Exporter

namespace CommandLine

/-! ## What is there when an export ends -/

/-- Finding something leaves everything as it is. -/
theorem Task.outcome_find_eq_ok {ε α : Type} {report : ε → Report} {f : FileTree → Except ε α}
    {s u : Stage} {x : α} :
    (find report f).outcome s = (.ok x, u) ↔ f s.tree = .ok x ∧ u = s := by
  rw [find, Action.outcome_of, Prod.mk.injEq, mapError_eq_ok, eq_comm (a := s)]

/-- An operation on files leaves the source of names as it is. -/
theorem Task.outcome_files_eq_ok {ε α : Type} {report : ε → Report} {a : Action FileTree ε α}
    {s u : Stage} {x : α} :
    (files report a).outcome s = (.ok x, u) ↔
      ∃ t, a.outcome s.tree = (.ok x, t) ∧ u = { s with tree := t } := by
  simp only [files, Action.outcome_zoom_eq_ok, Action.outcome_mapError_eq_ok]

/-- The stages succeed if the inputs are staged and the export on what was found succeeds. -/
theorem exportStaged_eq_ok {δ μ ω : Type} {x : Exporter δ μ ω} {w : Workspace} {m : Manifest}
    {settings : DecompileSettings} {version : Version} {output : Path} {decompiler : δ}
    {metadata : μ} {definitions : ω} {s u : Stage} {summary : ExportSummary}
    {records : ExportState δ μ ω} :
    (exportStaged x w m settings version output decompiler metadata definitions).outcome s =
        (.ok (summary, records), u) ↔
      ∃ staged v, (w.stage m.inputs).outcome s = (.ok staged, v) ∧
        (x.exportAll ⟨m.assets, m.resolveAssemblies v.tree staged, settings, version⟩
          output).outcome { tree := v.tree, decompiler, metadata, definitions } =
            (.ok summary, records) ∧
        u = { v with tree := records.tree } := by
  unfold exportStaged
  constructor
  · intro h
    obtain ⟨staged, v, hstage, h⟩ := Action.outcome_bind_eq_ok.mp h
    rw [Action.outcome_mapError_eq_ok] at hstage
    rw [Action.outcome_ask_bind, Action.outcome_of] at h
    dsimp only at h
    rcases hexport : (x.exportAll ⟨m.assets, m.resolveAssemblies v.tree staged, settings, version⟩
      output).outcome { tree := v.tree, decompiler, metadata, definitions } with ⟨result, after⟩
    rw [hexport] at h
    cases result with
    | error => cases h
    | ok total =>
        obtain ⟨heq, rfl⟩ := Prod.mk.inj h
        obtain ⟨rfl, rfl⟩ := Prod.mk.inj (Except.ok.inj heq)
        exact ⟨staged, v, hstage, hexport, rfl⟩
  · rintro ⟨staged, v, hstage, hexport, rfl⟩
    refine Action.outcome_bind_eq_ok.mpr
      ⟨staged, v, Action.outcome_mapError_eq_ok.mpr hstage, ?_⟩
    rw [Action.outcome_ask_bind, Action.outcome_of]
    dsimp only
    rw [hexport]
    rfl

/-- What an export reports and records is there. -/
structure ReportIsThere (summary : ExportSummary) (definitions : List Path) (t : FileTree) :
    Prop where
  scripts : ∀ p ∈ summary.scripts.stubsWritten ++ summary.scripts.existing, t.contains p
  definitions : ∀ p ∈ definitions, t.isFile p

/-- When an export has ended well, what it reports is there up to the moment when the workspace is
closed, and afterwards exactly if its path does not lead through the workspace. In particular all of
it is there if the output stands apart from the workspace. -/
theorem exportScripts_leavesReport {e : Environment} {i : Invocation} {manifest output : Path}
    {withMetadata : Bool} {s s' : Stage} {lines : List String}
    (h : (exportScripts e i manifest output withMetadata).outcome s = (.ok lines, s')) :
    ∃ config m w opened summary records used,
      (loadConfig i.config).outcome s = (.ok config, s) ∧
      Manifest.load s.tree manifest = .ok m ∧
      (prepareWorkspace e config i.workspace).outcome s = (.ok w, opened) ∧
      (exportStaged (exporter e config.decompilerCommand withMetadata) w m config.settings
        config.exportVersion output () {} []).outcome opened = (.ok (summary, records), used) ∧
      w.close.outcome used.tree = (.ok (), s'.tree) ∧
      lines = summaryLines output summary records.metadata.written ∧
      ReportIsThere summary records.definitions used.tree ∧
      (∀ p ∈ summary.scripts.stubsWritten ++ summary.scripts.existing,
        s'.tree.contains p ↔ used.tree.Spares s'.tree w.root p) ∧
      (∀ p ∈ records.definitions, s'.tree.isFile p ↔ used.tree.Spares s'.tree w.root p) ∧
      ((∀ l ∈ used.tree.visits output, ¬ used.tree.place w.root <:+ l) →
        ¬ used.tree.place output <:+ used.tree.place w.root →
        ReportIsThere summary records.definitions s'.tree) := by
  rw [outcome_exportScripts] at h
  obtain ⟨config, s₁, hconfig, h⟩ := Action.outcome_bind_eq_ok.mp h
  obtain ⟨m, s₂, hm, h⟩ := Action.outcome_bind_eq_ok.mp h
  obtain ⟨w, opened, hopen, h⟩ := Action.outcome_bind_eq_ok.mp h
  obtain ⟨⟨summary, records⟩, used, hexport, h⟩ := Action.outcome_bind_eq_ok.mp h
  obtain ⟨x, s₃, hcleanup, h⟩ := Action.outcome_bind_eq_ok.mp h
  obtain ⟨hlines, rfl⟩ := Prod.mk.inj h
  obtain rfl : s₁ = s := (Task.outcome_find_eq_ok.mp hconfig).2
  obtain ⟨hm, rfl⟩ := Task.outcome_find_eq_ok.mp hm
  rw [Action.outcome_mapError_eq_ok] at hexport
  obtain ⟨t, hclose, rfl⟩ := Task.outcome_files_eq_ok.mp hcleanup
  have hmetadata : ∀ v ∈ (exporter e config.decompilerCommand withMetadata).metadata,
      v.CreatesOnly := by
    intro v hv
    cases withMetadata with
    | false => cases hv
    | true =>
        obtain rfl := Option.some.inj hv
        exact MetadataWriter.createsOnly_ofGuids e.guid
  obtain ⟨staged, v, -, hall, hused⟩ := exportStaged_eq_ok.mp hexport
  obtain ⟨hscripts, hdefinitions⟩ := Exporter.exportAll_reported hmetadata rfl rfl rfl hall
  have htree : used.tree = records.tree := by rw [hused]
  rw [← htree] at hscripts hdefinitions
  have hclear : (Workspace.clear w.root).outcome used.tree = (.ok (), t) := hclose
  refine ⟨config, m, w, opened, summary, records, used, hconfig, hm, hopen, hexport, hclose,
    (Except.ok.inj hlines).symm,
    ⟨fun p hp => (hscripts p hp).1, fun p hp => (hdefinitions p hp).1⟩,
    fun p hp => Workspace.contains_clear_iff hclear (hscripts p hp).1,
    fun p hp => Workspace.isFile_clear_iff hclear (hdefinitions p hp).1,
    fun hvisits habove => ⟨fun p hp => ?_, fun p hp => ?_⟩⟩
  · obtain ⟨hthere, names, hnames, rfl⟩ := hscripts p hp
    exact (Workspace.contains_clear_iff hclear hthere).mpr
      (Workspace.spares_of_apart hnames hvisits habove)
  · obtain ⟨hthere, names, hnames, rfl⟩ := hdefinitions p hp
    exact (Workspace.isFile_clear_iff hclear hthere).mpr
      (Workspace.spares_of_apart hnames hvisits habove)

def quietEnvironment : Environment :=
  ⟨.error .notFound, fun _ _ => pure ⟨.code 0, [], []⟩, fun _ => .ofRandom 0⟩

/-- The files and the source of names at the start: there is the manifest of one script and nothing
else. -/
def oneScriptManifest : Stage :=
  { tree := ((Disk.writeText ⟨"m.json"⟩ ("\x7b\"assets\":[\x7b\"type\":\"script\"," ++
      "\"assemblyName\":\"Game\",\"className\":\"Boot\"\x7d]\x7d")).outcome
        ⟨[], [], @Archive.lookup_nil_closed⟩).2
    names := { letter := fun _ _ => Fin.last 56 } }

def exportOneScript (output : Path) : Except Report (List String) × Stage :=
  (exportScripts quietEnvironment
    ⟨none, some ⟨"work"⟩, false, .exportScripts ⟨"m.json"⟩ output false⟩ ⟨"m.json"⟩ output
      false).outcome oneScriptManifest

def exportOneScriptStaged (output : Path) :
    Except StagedExportError (ExportSummary × ExportState Unit GuidRecord (List Path)) × Stage :=
  (exportStaged (exporter quietEnvironment defaultDecompilerCommand false) ⟨⟨"work"⟩, 10⟩
    ⟨[], [], [.script ⟨"Game", "", "Boot"⟩]⟩ (Config.settings {}) defaultExportVersion output () {}
      []).outcome
    ((prepareWorkspace quietEnvironment {} (some ⟨"work"⟩)).outcome oneScriptManifest).2

/-- An output beside the workspace is there when the export has ended. -/
theorem exportScripts_leavesReport_beside_workspace :
    let summary : ExportSummary :=
      ⟨0, { stubsWritten := [⟨"out/Scripts/Game/Boot.cs"⟩] }, 1, 1⟩
    ∃ s', exportOneScript ⟨"out"⟩ = (.ok (summaryLines ⟨"out"⟩ summary 0), s') ∧
      ReportIsThere summary [⟨"out/Scripts/Game/Game.asmdef"⟩] s'.tree := by
  intro summary
  have hreport : (exportOneScript ⟨"out"⟩).1.toOption =
      some (summaryLines ⟨"out"⟩ summary 0) := by decide +kernel
  have hload : ((loadConfig none).outcome oneScriptManifest).1.toOption = some {} ∧
      (Manifest.load oneScriptManifest.tree ⟨"m.json"⟩).toOption =
        some ⟨[], [], [.script ⟨"Game", "", "Boot"⟩]⟩ ∧
      ((prepareWorkspace quietEnvironment {} (some ⟨"work"⟩)).outcome
        oneScriptManifest).1.toOption = some ⟨⟨"work"⟩, 10⟩ := by decide +kernel
  have hstages : (exportOneScriptStaged ⟨"out"⟩).1.toOption.map
        (fun x => (x.1, x.2.definitions)) = some (summary, [⟨"out/Scripts/Game/Game.asmdef"⟩]) ∧
      (exportOneScriptStaged ⟨"out"⟩).2.tree.workingDirectory = [] := by decide +kernel
  generalize hrun : exportOneScript ⟨"out"⟩ = exported at hreport
  obtain ⟨report, s'⟩ := exported
  cases report with
  | error => cases hreport
  | ok lines =>
      obtain rfl := Option.some.inj hreport
      obtain ⟨config, m, w, opened, total, records, used, hconfig, hm, hopen, hstaged, -, -, -, -,
        -, hapart⟩ := exportScripts_leavesReport hrun
      dsimp only at hconfig hopen
      rw [hconfig, hm] at hload
      obtain ⟨hconfig, hm, hopened⟩ := hload
      obtain rfl := Option.some.inj hconfig
      obtain rfl := Option.some.inj hm
      rw [hopen] at hopened
      obtain rfl := Option.some.inj hopened
      rw [exportOneScriptStaged, hopen,
        show (exportStaged _ _ _ _ _ _ _ _ _).outcome _ = _ from hstaged] at hstages
      obtain ⟨htotal, hworking⟩ := hstages
      obtain ⟨rfl, hdefinitions⟩ := Prod.mk.inj (Option.some.inj htotal)
      rw [hdefinitions] at hapart
      refine ⟨s', rfl, hapart ?_ ?_⟩
      · rw [FileTree.visits, FileTree.place, show used.tree.workingDirectory = [] from hworking]
        decide
      · rw [FileTree.place, FileTree.place, show used.tree.workingDirectory = [] from hworking]
        decide

/-- An output inside the workspace is reported and then removed together with the workspace. -/
theorem exportScripts_removesReport_inside_workspace :
    let stub : Path := ⟨"work/out/Scripts/Game/Boot.cs"⟩
    let definition : Path := ⟨"work/out/Scripts/Game/Game.asmdef"⟩
    let summary : ExportSummary := ⟨0, { stubsWritten := [stub] }, 1, 1⟩
    (exportOneScriptStaged ⟨"work/out"⟩).1.toOption.map (fun x => (x.1, x.2.definitions)) =
        some (summary, [definition]) ∧
      (exportOneScript ⟨"work/out"⟩).1.toOption = some (summaryLines ⟨"work/out"⟩ summary 0) ∧
      (exportOneScript ⟨"work/out"⟩).2.tree.contains stub = false ∧
      (exportOneScript ⟨"work/out"⟩).2.tree.isFile definition = false ∧
      ¬ ReportIsThere summary [definition] (exportOneScript ⟨"work/out"⟩).2.tree := by
  intro stub definition summary
  have hrun : (exportOneScript ⟨"work/out"⟩).1.toOption =
        some (summaryLines ⟨"work/out"⟩ summary 0) ∧
      (exportOneScript ⟨"work/out"⟩).2.tree.contains stub = false ∧
      (exportOneScript ⟨"work/out"⟩).2.tree.isFile definition = false := by decide +kernel
  obtain ⟨hreport, hgone, hnone⟩ := hrun
  refine ⟨by decide +kernel, hreport, hgone, hnone, fun hthere => ?_⟩
  have hfound := hthere.scripts stub List.mem_cons_self
  rw [hgone] at hfound
  cases hfound

end CommandLine

end GameExport
