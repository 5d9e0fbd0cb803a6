import GameExport.Proofs.CommandLine.Export
import GameExport.Proofs.Shell.Launch

/-! # Commands end where they started

No command changes the directory from which relative paths start, as long as the programs that it
runs do not. So a relative path on the command line means the same place from the beginning of a run
to its end.
-/

namespace GameExport

open FileTree

variable {σ δ μ : Type}

/-! ## Exports -/

theorem Decompiler.ofProgram_samePlace {run : ProgramRunner} {program : String}
    (hrun : ∀ args, (run program args).Moves SamePlace) (a : ManagedAssembly) (directory : Path)
    (settings : DecompileSettings) :
    (ofProgram run program a directory settings : Work σ Unit).Moves
      fun s u => SamePlace s.1 u.1 := by
  have hrefl (s : FileTree × σ) : SamePlace s.1 s.1 := SamePlace.refl s.1
  have htrans (s t u : FileTree × σ) (h : SamePlace s.1 t.1) (k : SamePlace t.1 u.1) :
      SamePlace s.1 u.1 := SamePlace.trans _ _ _ h k
  unfold ofProgram
  split
  · exact .pure hrefl ()
  · refine .bind htrans ((Work.files_moves (hrun _)).during _) fun result => ?_
    split
    · exact .pure hrefl ()
    · exact .throw hrefl _

/-- An export keeps its place if its helpers do. -/
theorem Exporter.exportAll_samePlace {e : Exporter δ μ (List Path)} {r : ExportRequest} {root : Path}
    (hd : ∀ a directory, (e.decompiler a directory r.settings).Moves fun s u => SamePlace s.1 u.1)
    (hw : ∀ w ∈ e.metadata, ∀ s, (w s (s.file root)).Moves fun t u => SamePlace t.1 u.1)
    (he : e.definitions = AssemblyDefinition.writer) :
    (e.exportAll r root).Moves fun s u => SamePlace s.tree u.tree := by
  have hrefl (s : ExportState δ μ (List Path)) : SamePlace s.tree s.tree := SamePlace.refl s.tree
  have htrans (s t u : ExportState δ μ (List Path)) (h : SamePlace s.tree t.tree)
      (k : SamePlace t.tree u.tree) : SamePlace s.tree u.tree := SamePlace.trans _ _ _ h k
  have hrun : (e.decompiler.run root r.settings r.assemblies).Moves
      (Job.GoesOn SamePlace fun _ => True) :=
    Decompiler.run_goesOn SamePlace.refl SamePlace.trans
      (fun _ => Disk.makeDirectories_samePlace _) (fun a _ => hd a _) (fun _ => trivial) _
  have hpass : (materialize root e.metadata (Asset.scripts r.assets)).Moves
      (Job.GoesOn SamePlace fun _ => True) :=
    materialize_goesOn SamePlace.refl SamePlace.trans (fun _ => Disk.makeDirectories_samePlace _)
      (fun _ => Disk.write_samePlace _ _) hw (fun _ => trivial) _
  have hemit (m : DescriptorMap) : (AssemblyDefinition.writer.emit
      (AssemblyDefinition.supportedBy r.version) m).Moves fun s u => SamePlace s.1 u.1 :=
    DefinitionWriter.emit_moves SamePlace.refl SamePlace.trans (fun d _ =>
      AssemblyDefinition.writer_moves SamePlace.refl SamePlace.trans
        (Disk.makeDirectories_samePlace _) (fun _ => Disk.write_samePlace _ _)) _
  have hstages : (e.stages r root).Moves fun s u => SamePlace s.tree u.tree := by
    refine .bind htrans (.zoom (fun _ _ h => h.tree) hrun) fun decompiled => ?_
    refine .bind htrans (.zoom (fun _ _ h => h.tree) hpass) fun scripts => ?_
    refine .bind htrans (.ask hrefl _) fun m => ?_
    refine .bind htrans ?_ fun n => .pure hrefl _
    unfold define
    rw [he]
    exact .zoom (fun _ _ h => h) (hemit m)
  unfold exportAll
  split
  · exact .throw hrefl _
  · exact hstages.mapError

/-! ## Commands -/

/-- Opening a workspace keeps the place, even where it fails. -/
theorem Workspace.prepare_samePlace (root : Path) (config : WorkspaceConfig) :
    (prepare root config).Moves SamePlace := by
  have hclear : (clear root).Moves SamePlace := Disk.samePlace_of_moves (clear_moves root)
  have hmake := Disk.makeDirectories_samePlace root
  unfold prepare
  dsimp only
  split
  · exact .throw SamePlace.refl _
  · refine .bind SamePlace.trans hclear.mapError fun _ => ?_
    refine .bind SamePlace.trans hmake.mapError fun _ => ?_
    exact .pure SamePlace.refl _

namespace CommandLine

variable {α ε : Type} {e : Environment}

def Keeps (s u : Stage) : Prop := SamePlace s.tree u.tree

theorem Keeps.refl (s : Stage) : Keeps s s := SamePlace.refl s.tree

theorem Keeps.trans (s t u : Stage) (h : Keeps s t) (k : Keeps t u) : Keeps s u :=
  SamePlace.trans _ _ _ h k

theorem Task.files_keeps {report : ε → Report} {a : Action FileTree ε α} (ha : a.Moves SamePlace) :
    (files report a).Moves Keeps :=
  .zoom (fun _ _ h => h) ha.mapError

theorem Task.find_keeps (report : ε → Report) (f : FileTree → Except ε α) :
    (find report f).Moves Keeps :=
  fun s => Keeps.refl s

theorem prepareWorkspace_keeps (e : Environment) (config : Config) (directory : Option Path) :
    (prepareWorkspace e config directory).Moves Keeps := by
  refine Task.files_keeps ?_
  split
  · exact Workspace.prepare_samePlace _ _
  · unfold Workspace.prepareBeside
    split
    · exact Workspace.prepare_samePlace _ _
    · exact .throw SamePlace.refl _

theorem stageInputs_keeps (w : Workspace) (inputs : List Path) :
    ((w.stage inputs).mapError Report.ofStageError).Moves Keeps :=
  Action.Moves.mapError fun s => (w.stage_growsBelow inputs s).changes.workingDirectory

/-- The export on the command line keeps its place if programs do. -/
theorem exportWith_samePlace (hrun : ∀ program args, (e.runProgram program args).Moves SamePlace)
    (program : String) (withMetadata : Bool) (r : ExportRequest) (output : Path) :
    (exportWith e program withMetadata r output).Moves SamePlace := by
  have hwriter : ∀ w ∈ (exporter e program withMetadata).metadata, ∀ s : ScriptAsset,
      (w s (s.file output)).Moves fun t u => SamePlace t.1 u.1 := by
    intro w hw s
    obtain rfl : .ofGuids e.guid = w := by
      unfold exporter at hw
      split at hw
      · exact Option.some.inj hw
      · cases hw
    exact MetadataWriter.ofGuids_moves SamePlace.refl SamePlace.trans
      (fun _ => Disk.write_samePlace _ _) e.guid s
  intro t
  rw [outcome_exportWith rfl]
  exact (exporter e program withMetadata).exportAll_samePlace
    (fun a _ => Decompiler.ofProgram_samePlace (hrun program) a _ r.settings) hwriter rfl _

theorem writeConfig_keeps (project : Path) : (writeConfig project).Moves Keeps := by
  have hwrite {report : FileError → Report} : (Task.files report (Disk.writeText
      (project.join Config.fileName) (Config.toJson {}).pretty)).Moves Keeps :=
    Task.files_keeps (Disk.write_samePlace _ _)
  refine .bind Keeps.trans (Task.files_keeps (Disk.makeDirectories_samePlace project)) fun _ => ?_
  refine .bind Keeps.trans (.ask Keeps.refl _) fun isThere => ?_
  dsimp only
  split
  · refine .bind Keeps.trans (.throw Keeps.refl _) fun _ => ?_
    exact .bind Keeps.trans hwrite fun _ => .pure Keeps.refl _
  · exact .bind Keeps.trans hwrite fun _ => .pure Keeps.refl _

theorem init_keeps (directory : Option Path) : (init directory).Moves Keeps := by
  cases directory with
  | some p => exact writeConfig_keeps p
  | none => exact .bind Keeps.trans (Task.find_keeps _ currentDirectory) writeConfig_keeps

theorem stage_keeps (e : Environment) (i : Invocation) (inputs : List Path) :
    (stage e i inputs).Moves Keeps := by
  refine .bind Keeps.trans (Task.find_keeps _ _) fun config => ?_
  refine .bind Keeps.trans (prepareWorkspace_keeps e config _) fun w => ?_
  refine .bind Keeps.trans (stageInputs_keeps w inputs) fun staged => ?_
  exact .pure Keeps.refl _

theorem exportScripts_keeps (hrun : ∀ program args, (e.runProgram program args).Moves SamePlace)
    (i : Invocation) (manifest output : Path) (withMetadata : Bool) :
    (exportScripts e i manifest output withMetadata).Moves Keeps := by
  refine .bind Keeps.trans (Task.find_keeps _ _) fun config => ?_
  refine .bind Keeps.trans (Task.find_keeps _ _) fun m => ?_
  refine .bind Keeps.trans (prepareWorkspace_keeps e config _) fun w => ?_
  refine .bind Keeps.trans (stageInputs_keeps w m.inputs) fun staged => ?_
  refine .bind Keeps.trans (.ask Keeps.refl _) fun assemblies => ?_
  refine .bind Keeps.trans (Task.files_keeps (exportWith_samePlace hrun _ _ _ _)) fun summary => ?_
  refine .bind Keeps.trans ?_ fun _ => .pure Keeps.refl _
  exact Task.files_keeps (Disk.samePlace_of_moves (Workspace.clear_moves w.root))

/-- Whatever is asked for, and however it ends, relative paths start from the same directory before
and after. -/
theorem run_samePlace (hrun : ∀ program args, (e.runProgram program args).Moves SamePlace)
    (args : List String) (s : Stage) : SamePlace s.tree (run e args s).2.tree := by
  have hperform (i : Invocation) : (perform e i).Moves Keeps := by
    unfold perform
    split
    · exact init_keeps _
    · exact stage_keeps e i _
    · exact exportScripts_keeps hrun i _ _ _
  unfold run
  split
  · exact Keeps.refl s
  · exact Keeps.refl s
  · exact Keeps.refl s
  · next i _ =>
      have hend := hperform i s
      split
      · next heq => rwa [heq] at hend
      · next heq => rwa [heq] at hend

/-- The programs of the system keep to this. -/
theorem run_samePlace_of_launch (h : e.runProgram = Shell.launch) (args : List String) (s : Stage) :
    SamePlace s.tree (run e args s).2.tree :=
  run_samePlace (fun program args => h ▸ Shell.launch_samePlace program args) args s

end CommandLine

end GameExport
