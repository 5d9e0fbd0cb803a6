import GameExport.Metadata
import GameExport.ScriptTarget
import GameExport.Stub

/-! # Giving every script a file

A script without a source file gets a placeholder, and every script without metadata is handed to
the metadata writer. Nothing that exists is written again.
-/

namespace GameExport

variable {σ : Type}

/-- What happened to the scripts, each in the order of the assets. -/
structure ScriptReport where
  stubsWritten : List Path := []
  existing : List Path := []
  handedOff : List Path := []
  conflicts : List Path := []
  skippedEngine : Nat := 0
  deriving DecidableEq

namespace ScriptReport

def append (r s : ScriptReport) : ScriptReport where
  stubsWritten := r.stubsWritten ++ s.stubsWritten
  existing := r.existing ++ s.existing
  handedOff := r.handedOff ++ s.handedOff
  conflicts := r.conflicts ++ s.conflicts
  skippedEngine := r.skippedEngine + s.skippedEngine

instance : Append ScriptReport := ⟨append⟩

end ScriptReport

namespace ScriptAsset

def target (s : ScriptAsset) : ScriptTarget := .of s.assemblyName s.ns s.className

def file (s : ScriptAsset) (root : Path) : Path := root.join s.target.relativePath

/-- Writes the placeholder unless the script has a file. -/
def ensureSource (s : ScriptAsset) (root : Path) : Action (Job σ) Failure ScriptReport := do
  let file := s.file root
  let folder := root.join s.target.folder
  if ← Action.ask fun j => j.tree.contains file then
    pure { existing := [file] }
  else
    (Job.files (Disk.makeDirectories folder)).during (.creating folder)
    (Job.files (Disk.writeText file (Stub.source s.ns s.className))).during (.writing file)
    Job.takeDown s.assembly (Stub.directory root s.assembly)
    pure { stubsWritten := [file] }

/-- Hands the script to the metadata writer unless it has metadata. -/
def ensureMetadata (s : ScriptAsset) (root : Path) (w : MetadataWriter σ) :
    Action (Job σ) Failure ScriptReport := do
  let file := s.file root
  if ← Action.ask fun j => j.tree.contains (Metadata.path file) then
    pure { conflicts := [file] }
  else
    (Job.help (w s file)).during (.writingMetadata file)
    pure { handedOff := [file] }

/-- Gives one script its files. Scripts of the engine are passed over. -/
def materialize (s : ScriptAsset) (root : Path) (w : Option (MetadataWriter σ)) :
    Action (Job σ) Failure ScriptReport :=
  if s.isEngine then pure { skippedEngine := 1 }
  else do
    let source ← s.ensureSource root
    match w with
    | none => pure source
    | some w => do
        let metadata ← s.ensureMetadata root w
        pure (source ++ metadata)

end ScriptAsset

/-- Gives scripts their files, one after the other. The first failure ends the pass. -/
def materialize (root : Path) (w : Option (MetadataWriter σ)) :
    List ScriptAsset → Action (Job σ) Failure ScriptReport
  | [] => pure {}
  | s :: ss => do
      let r ← s.materialize root w
      let rs ← materialize root w ss
      pure (r ++ rs)

end GameExport
