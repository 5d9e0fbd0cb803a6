import GameExport.Config
import GameExport.Disk.Files

/-! # Workspaces

A workspace is a directory for what gets unpacked. It is emptied when it is prepared, every archive
gets a folder with a random name in it, and it is removed when it is closed.
-/

namespace GameExport

/-- A directory for folders whose names have so many characters. -/
structure Workspace where
  root : Path
  nameLength : Nat
  deriving DecidableEq

inductive WorkspaceError where
  | remove (p : Path) (e : FileError)
  | create (p : Path) (e : FileError)
  | executable (e : FileError)
  | nameLength (n : Nat)
  deriving DecidableEq

/-- Random names are told apart only if they have this many characters. -/
def Workspace.minNameLength : Nat := 6

namespace WorkspaceError

def message : WorkspaceError → String
  | .remove p e => "Failed to remove stale workspace " ++ p.text ++ ": " ++ e.message
  | .create p e => "Failed to create workspace " ++ p.text ++ ": " ++ e.message
  | .executable e => "Could not locate the running executable: " ++ e.message
  | .nameLength n =>
      "Random folder name length " ++ toString n ++ " is too short (minimum " ++
        toString Workspace.minNameLength ++ ")"

def cause? : WorkspaceError → Option FileError
  | .remove _ e => some e
  | .create _ e => some e
  | .executable e => some e
  | .nameLength _ => none

end WorkspaceError

/-! ## Random names -/

/-- The characters of random names. Those that look like one another are left out. -/
def nameAlphabet : Vector Char 57 :=
  #v['a', 'b', 'c', 'd', 'e', 'f', 'g', 'h', 'i', 'j', 'k', 'm', 'n', 'o', 'p', 'q', 'r', 's',
     't', 'u', 'v', 'w', 'x', 'y', 'z', 'A', 'B', 'C', 'D', 'E', 'F', 'G', 'H', 'J', 'K', 'L',
     'M', 'N', 'P', 'Q', 'R', 'S', 'T', 'U', 'V', 'W', 'X', 'Y', 'Z', '2', '3', '4', '5', '6',
     '7', '8', '9']

/-- A source of random names: the letters of every name, and how many names have been drawn. -/
structure Names where
  letter : Nat → Nat → Fin 57
  drawn : Nat := 0

/-- The name that is drawn as number `k`. -/
def Names.name (names : Names) (length k : Nat) : String :=
  String.ofList ((List.range length).map fun i => nameAlphabet[names.letter k i])

namespace Workspace

def folder (w : Workspace) (name : String) : Path := w.root.join name

/-- A new folder in a workspace. It is only a path until something is written there. -/
def allocate {ε : Type} (w : Workspace) : Action Names ε Path :=
  .of fun names =>
    (.ok (w.folder (names.name w.nameLength names.drawn)), { names with drawn := names.drawn + 1 })

def clear (root : Path) : Disk.Operation Unit := do
  if ← Action.ask fun t : FileTree => t.contains root then Disk.removeDirectory root

/-- Prepares a workspace: whatever is there is removed. -/
def prepare (root : Path) (config : WorkspaceConfig) : Action FileTree WorkspaceError Workspace :=
  let length := config.nameLength.toNat
  if length < minNameLength then throw (.nameLength length)
  else do
    (clear root).mapError (.remove root)
    (Disk.makeDirectories root).mapError (.create root)
    pure ⟨root, length⟩

/-- Prepares the workspace in the directory of the program that is running. -/
def prepareBeside (directory : Except FileError Path) (config : WorkspaceConfig) :
    Action FileTree WorkspaceError Workspace :=
  match directory with
  | .ok d => Workspace.prepare (d.join config.rootName) config
  | .error e => throw (.executable e)

def close (w : Workspace) : Disk.Operation Unit := clear w.root

end Workspace

end GameExport
