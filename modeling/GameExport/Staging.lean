import GameExport.Archive.Content
import GameExport.Archive.EntryName
import GameExport.Archive.Kind
import GameExport.Workspace

/-! # Staging inputs

Every input becomes a path that can be read directly: an archive is unpacked into a folder of its
own, anything else is taken as it is. The first archive that cannot be unpacked ends the staging.
-/

namespace GameExport

inductive StageError where
  | cannotOpen (archive : Path) (e : FileError)
  | corrupt (archive : Path) (flaw : Archive.Flaw)
  | unsafeEntry (archive : Path) (entry : String)
  | cannotWrite (archive destination : Path) (e : FileError)
  deriving DecidableEq

namespace StageError

def message : StageError → String
  | .cannotOpen archive e => "Failed to open archive " ++ archive.text ++ ": " ++ e.message
  | .corrupt archive flaw => "Invalid or corrupt archive " ++ archive.text ++ ": " ++ flaw.message
  | .unsafeEntry archive entry =>
      "Archive " ++ archive.text ++ " contains an unsafe entry path: " ++ entry
  | .cannotWrite archive destination e =>
      "Failed to extract " ++ archive.text ++ " into " ++ destination.text ++ ": " ++ e.message

def cause? : StageError → Option String
  | .cannotOpen _ e => some e.message
  | .corrupt _ flaw => some flaw.message
  | .unsafeEntry _ _ => none
  | .cannotWrite _ _ e => some e.message

end StageError

namespace Archive

/-- Writes the content of an entry as far as it can be had. -/
def writeContent (target : Path) (p : Packed) : Disk.Operation Unit := do
  match target.parent with
  | some folder => Disk.makeDirectories folder
  | none => pure ()
  let (bytes, flaw) := p.content
  Disk.write target bytes
  match flaw with
  | some e => throw e
  | none => pure ()

def unpackEntry (archive destination : Path) (file : ByteArray) (e : ArchiveEntry) :
    Action FileTree StageError Unit :=
  match findData file e with
  | .error flaw => throw (.corrupt archive flaw)
  | .ok data =>
      if !isSafeName e.name then throw (.unsafeEntry archive e.name)
      else
        let target := destination.join e.name
        let operation :=
          if isFolderName e.name then Disk.makeDirectories target else writeContent target data
        operation.mapError (.cannotWrite archive destination)

def unpackEntries (archive destination : Path) (file : ByteArray) :
    List ArchiveEntry → Action FileTree StageError Unit
  | [] => pure ()
  | e :: es => do
      unpackEntry archive destination file e
      unpackEntries archive destination file es

/-- The entries of an archive. A directory can be opened, but it is no archive. -/
def load (t : FileTree) (archive : Path) : Except StageError (ByteArray × List ArchiveEntry) :=
  match Disk.read t archive with
  | .error .isDirectory => .error (.corrupt archive .noEnd)
  | .error e => .error (.cannotOpen archive e)
  | .ok file =>
      match entries file with
      | .error flaw => .error (.corrupt archive flaw)
      | .ok es => .ok (file, es)

/-- Unpacks an archive into a folder, which is there afterwards even if the archive is empty. -/
def unpack (archive destination : Path) : Action FileTree StageError Unit := do
  let (file, es) ← Action.of fun t => (load t archive, t)
  (Disk.makeDirectories destination).mapError (.cannotWrite archive destination)
  unpackEntries archive destination file es

end Archive

/-- The files, and the source of folder names. -/
structure Stage where
  tree : FileTree
  names : Names

namespace Workspace

def extract (w : Workspace) (archive : Path) : Action Stage StageError Path := do
  let destination ← w.allocate.zoom Stage.names fun names s => { s with names }
  (Archive.unpack archive destination).zoom Stage.tree fun tree s => { s with tree }
  pure destination

/-- An input is unpacked if it is a file and named like an archive that gets unpacked. -/
def isUnpacked (t : FileTree) (input : Path) : Bool :=
  t.isFile input && ((input.extension.bind ArchiveKind.ofExtension).map (·.isUnpacked)).getD false

def stageOne (w : Workspace) (input : Path) : Action Stage StageError Path := do
  if ← Action.ask fun s : Stage => isUnpacked s.tree input then w.extract input else pure input

/-- The paths for inputs, in the same order. -/
def stage (w : Workspace) : List Path → Action Stage StageError (List Path)
  | [] => pure []
  | input :: inputs => do
      let path ← w.stageOne input
      let paths ← w.stage inputs
      pure (path :: paths)

end Workspace

end GameExport
