import GameExport.Action
import GameExport.Disk.Walk

/-! # Reading and changing files

The operations on a tree fail as a file system fails. Missing directories are made from the
outermost to the innermost, and what was made before a failure stays.
-/

namespace GameExport.Disk

abbrev Operation (α : Type) := Action FileTree FileError α

def look {α : Type} (f : FileTree → Except FileError α) : Operation α :=
  .of fun t => (f t, t)

/-! ## Reading -/

def read (t : FileTree) (p : Path) : Except FileError ByteArray := do
  let l ← t.locate p
  match t.get? l with
  | some (.file content _) => pure content
  | some .directory => throw .isDirectory
  | none => throw .notFound

def readText (t : FileTree) (p : Path) : Except FileError String := do
  let content ← read t p
  match String.fromUTF8? content with
  | some s => pure s
  | none => throw .notText

/-! ## Writing -/

/-- Puts content at a name in a directory. A file that is there keeps its mode. -/
def writeAt (content : ByteArray) (l : Location) (name : String) : Operation Unit :=
  .of fun t =>
    if hparent : t.get? l = some .directory then
      if hnew : t.get? (name :: l) = some .directory then (.error .isDirectory, t)
      else
        let executable := match t.get? (name :: l) with
          | some (.file _ executable) => executable
          | _ => false
        (.ok (), t.put name l (.file content executable) hparent hnew)
    else (.error .notDirectory, t)

/-- Writes a file, in place of the one that is there if there is one. -/
def write (p : Path) (content : ByteArray) : Operation Unit := do
  let (l, last) ← look (·.locateParent p)
  match last with
  | .name n =>
      if p.endsInSlash then throw .isDirectory
      look fun _ => FileTree.checkName n
      writeAt content l n
  | _ => throw .isDirectory

def writeText (p : Path) (text : String) : Operation Unit := write p text.toUTF8

/-- Lets a file be run as a program, or not any more. -/
def setExecutable (executable : Bool) (p : Path) : Operation Unit := do
  let l ← look (·.locate p)
  .of fun t =>
    match l, t.get? l with
    | name :: parent, some (.file content _) =>
        if hparent : t.get? parent = some .directory then
          if hnew : t.get? (name :: parent) = some .directory then (.ok (), t)
          else (.ok (), t.put name parent (.file content executable) hparent hnew)
        else (.ok (), t)
    | _, _ => (.ok (), t)

/-! ## Directories -/

/-- Makes a directory in another one that is there. The name must be free. -/
def makeAt (l : Location) (name : String) : Operation Unit :=
  .of fun t =>
    if hparent : t.get? l = some .directory then
      if hnew : t.get? (name :: l) = none then
        (.ok (), t.put name l .directory hparent (by simp [hnew]))
      else (.error .alreadyExists, t)
    else (.error .notDirectory, t)

/-- Makes the directory that a path names. What stands around it has to be there. -/
def makeDirectory (p : Path) : Operation Unit := do
  let (l, last) ← look (·.locateParent p)
  match last with
  | .name n =>
      look fun _ => FileTree.checkName n
      makeAt l n
  | _ => throw .alreadyExists

/-- Makes a directory unless it is there already. -/
def ensureDirectory (p : Path) : Operation Unit :=
  tryCatch (makeDirectory p) fun e => do
    if e = .alreadyExists ∧ (← Action.ask fun t : FileTree => t.isDirectory p) then pure ()
    else throw e

/-- Makes the first of some paths. If it cannot be made because something around it is missing,
the other paths are made before, each of which is around the one that stands before it. -/
def ensureNested : List Path → Operation Unit
  | [] => pure ()
  | p :: around =>
      tryCatch (ensureDirectory p) fun e =>
        if e = .notFound then do
          ensureNested around
          ensureDirectory p
        else throw e

/-- Makes a directory and all directories around it that are missing. One that is there already
is no fault, and an empty path needs none. -/
def makeDirectories (p : Path) : Operation Unit :=
  if p.text = "" then pure () else ensureNested (p :: p.around)

/-! ## Removing -/

/-- Removes an empty directory, which the last step of the path has to name. -/
def removeEmpty (p : Path) : Operation Unit := do
  let (l, last) ← look (·.locateParent p)
  match last with
  | .name n => .of fun t => (.ok (), t.removeAt (n :: l))
  | .here => throw .invalidArgument
  | .up => throw .notEmpty
  | .root => throw .busy

/-- Removes a directory with everything in it, the innermost first. The path may lead through what
is removed: then nothing is found at last, and that is no fault. -/
def removeDirectory (p : Path) : Operation Unit := do
  let l ← look (·.locate p)
  look (·.checkDirectory l)
  .of fun t => (.ok (), t.emptyAt l)
  tryCatch (removeEmpty p) fun e => if e = .notFound then pure () else throw e

def removeFile (p : Path) : Operation Unit := do
  let l ← look (·.locate p)
  .of fun t =>
    if t.isDirectoryAt l then (.error .isDirectory, t) else (.ok (), t.removeAt l)

end GameExport.Disk
