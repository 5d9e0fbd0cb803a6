import GameExport.CommandLine.Arguments
import GameExport.CommandLine.Report
import GameExport.Decompile.Command
import GameExport.Manifest

/-! # Commands

There are three commands: one writes a configuration file, one stages inputs and says where they
are, one exports the scripts of a manifest. What a command wrote before it failed stays.
-/

namespace GameExport.CommandLine

/-- What a command finds around it: the directory of the program itself, how programs are run, and
where identifiers come from. -/
structure Environment where
  executableDirectory : Except FileError Path
  runProgram : ProgramRunner
  guid : Nat → Guid

/-- The work of a command: lines to be printed, or a report of what failed. -/
abbrev Task := Action Stage Report (List String)

namespace Task

variable {α ε : Type}

def files (report : ε → Report) (a : Action FileTree ε α) : Action Stage Report α :=
  (a.mapError report).zoom Stage.tree fun tree s => { s with tree }

def find (report : ε → Report) (f : FileTree → Except ε α) : Action Stage Report α :=
  .of fun s => ((f s.tree).mapError report, s)

end Task

def currentDirectory (t : FileTree) : Except FileError Path := do
  t.checkDirectory t.workingDirectory
  pure ⟨"/" ++ "/".intercalate t.workingDirectory.reverse⟩

/-- Writes the default configuration, unless there is one. -/
def writeConfig (project : Path) : Task := do
  Task.files (fun e => (Report.ofFileError e).within "Failed to create project directory")
    (Disk.makeDirectories project)
  let path := project.join Config.fileName
  if ← Action.ask fun s : Stage => s.tree.contains path then
    throw ⟨path.text ++ " already exists", []⟩
  Task.files (fun e => (Report.ofFileError e).within ("Failed to write " ++ Config.fileName))
    (Disk.writeText path (Config.toJson {}).pretty)
  pure ["Wrote " ++ path.text]

def init (directory : Option Path) : Task :=
  let noDirectory (e : FileError) := (Report.ofFileError e).within "Failed to get current directory"
  match directory with
  | some p => writeConfig p
  | none => Task.find noDirectory currentDirectory >>= writeConfig

/-- Prepares the workspace in the directory given, or else beside the program. -/
def prepareWorkspace (e : Environment) (config : Config) (directory : Option Path) :
    Action Stage Report Workspace :=
  Task.files Report.ofWorkspaceError
    (match directory with
      | some d => Workspace.prepare d config.workspace
      | none => Workspace.prepareBeside e.executableDirectory config.workspace)

def loadConfig (path : Option Path) : Action Stage Report Config :=
  Task.find Report.ofConfigError fun t => Config.load t (path.getD Config.fileName)

/-- Stages inputs and prints where they are. The workspace is left as it is. -/
def stage (e : Environment) (i : Invocation) (inputs : List Path) : Task := do
  let config ← loadConfig i.config
  let workspace ← prepareWorkspace e config i.workspace
  let staged ← (workspace.stage inputs).mapError Report.ofStageError
  pure (staged.map fun p => Path.normalized p.text)

def summaryLines (output : Path) (s : ExportSummary) (metadataWritten : Nat) : List String :=
  ["Exported scripts to " ++ Path.normalized output.text,
   "  Assemblies decompiled:  " ++ toString s.decompiled,
   "  Stub scripts written:   " ++ toString s.scripts.stubsWritten.length,
   "  Existing scripts kept:  " ++ toString s.scripts.existing.length,
   "  Meta files written:     " ++ toString metadataWritten,
   "  Meta conflicts:         " ++ toString s.scripts.conflicts.length,
   "  Assembly definitions:   " ++ toString s.definitions]

/-- The export with the helpers of the command line. -/
def exportWith (e : Environment) (program : String) (withMetadata : Bool) (r : ExportRequest)
    (output : Path) : Action FileTree ExportError (ExportSummary × Nat) :=
  let exporter : Exporter Unit GuidRecord (List Path) :=
    ⟨Decompiler.ofProgram e.runProgram program,
      if withMetadata then some (MetadataWriter.ofGuids e.guid) else none,
      AssemblyDefinition.writer⟩
  .of fun tree =>
    let (result, s) := (exporter.exportAll r output).outcome
      { tree, decompiler := (), metadata := {}, definitions := [] }
    (result.map fun summary => (summary, s.metadata.written), s.tree)

/-- Exports the scripts of a manifest. The workspace is removed when all went well. -/
def exportScripts (e : Environment) (i : Invocation) (manifest output : Path)
    (withMetadata : Bool) : Task := do
  let config ← loadConfig i.config
  let m ← Task.find Report.ofFailure fun t => Manifest.load t manifest
  let workspace ← prepareWorkspace e config i.workspace
  let staged ← (workspace.stage m.inputs).mapError Report.ofStageError
  let assemblies ← Action.ask fun s : Stage => m.resolveAssemblies s.tree staged
  let (summary, metadataWritten) ←
    Task.files (fun x => (Report.ofExportError x).within "Script export failed")
      (exportWith e config.decompilerCommand withMetadata
        ⟨m.assets, assemblies, config.settings, config.exportVersion⟩ output)
  Task.files (fun x => (Report.ofFileError x).within "Failed to clean up workspace")
    workspace.close
  pure (summaryLines output summary metadataWritten)

def perform (e : Environment) (i : Invocation) : Task :=
  match i.command with
  | .init directory => init directory
  | .stage inputs => stage e i inputs
  | .exportScripts manifest output withMetadata => exportScripts e i manifest output withMetadata

/-- The name and the version of the program. -/
def versionLine : String := "assetstage 0.4.0"

/-- How the program ends: with a code, lines printed and a text of complaint. -/
structure Answer where
  code : UInt8
  lines : List String := []
  complaint : String := ""
  deriving DecidableEq

def run (e : Environment) (args : List String) (s : Stage) : Answer × Stage :=
  match Request.ofArguments args with
  | .misuse => ({ code := 2 }, s)
  | .help => ({ code := 0 }, s)
  | .version => ({ code := 0, lines := [versionLine] }, s)
  | .run i =>
      match (perform e i).outcome s with
      | (.ok lines, s) => ({ code := 0, lines }, s)
      | (.error r, s) => ({ code := 1, complaint := r.text }, s)

end GameExport.CommandLine
