import GameExport.Disk.Error
import GameExport.Disk.FileTree
import GameExport.Path
import GameExport.Text.Utf8

/-! # Walking along a path

A path is walked step by step from the root or from the working directory. Every step is taken
from a directory, so a path that leads through a file or through nothing leads nowhere.
-/

namespace GameExport

namespace Path

/-- The steps that a path spells, dots included. -/
def steps (p : Path) : List Component :=
  (if p.isAbsolute then [.root] else []) ++ (parts '/' p.text.toList).map componentOf

/-- Where a step leads by its name alone. -/
def Component.follow (l : Location) : Component → Location
  | .root => []
  | .here => l
  | .up => l.tail
  | .name n => n :: l

def endsInSlash (p : Path) : Bool := p.text.toList.getLast? = some '/'

/-- Bytes that a path may have. -/
def maxSize : Nat := 4095

/-- Bytes that a name may have. -/
def maxNameSize : Nat := 255

/-- Why no system takes the path, if that is so. -/
def refusal (p : Path) : Option FileError :=
  if '\x00' ∈ p.text.toList then some .zeroInPath
  else if p.text = "" then some .notFound
  else if maxSize < p.text.utf8ByteSize then some .nameTooLong
  else none

end Path

namespace FileTree

/-- Nothing, if the location is a directory from which a step can be taken. -/
def checkDirectory (t : FileTree) (l : Location) : Except FileError Unit :=
  match t.get? l with
  | some .directory => .ok ()
  | some (.file _ _) => .error .notDirectory
  | none => .error .notFound

def checkName (name : String) : Except FileError Unit :=
  if Path.maxNameSize < name.utf8ByteSize then .error .nameTooLong else .ok ()

/-- Where one step leads. -/
def step (t : FileTree) (l : Location) : Path.Component → Except FileError Location
  | .root => .ok []
  | .here => do
      t.checkDirectory l
      pure l
  | .up => do
      t.checkDirectory l
      pure l.tail
  | .name n => do
      t.checkDirectory l
      checkName n
      if (t.get? (n :: l)).isSome then pure (n :: l) else throw .notFound

def walk (t : FileTree) : Location → List Path.Component → Except FileError Location
  | l, [] => .ok l
  | l, c :: cs => do
      let next ← t.step l c
      t.walk next cs

/-- The location that a path is the path of. -/
def locate (t : FileTree) (p : Path) : Except FileError Location :=
  match p.refusal with
  | some e => .error e
  | none => do
      let l ← t.walk t.workingDirectory p.steps
      if p.endsInSlash then t.checkDirectory l
      pure l

def find? (t : FileTree) (p : Path) : Option Entry :=
  match t.locate p with
  | .ok l => t.get? l
  | .error _ => none

def contains (t : FileTree) (p : Path) : Bool := (t.find? p).isSome

def isDirectory (t : FileTree) (p : Path) : Bool := t.find? p = some .directory

def isFile (t : FileTree) (p : Path) : Bool :=
  match t.find? p with
  | some (.file _ _) => true
  | _ => false

/-- The directory in which the last step of a path is taken, and that step. A path without any
step is the root's. -/
def locateParent (t : FileTree) (p : Path) : Except FileError (Location × Path.Component) :=
  match p.refusal with
  | some e => .error e
  | none => do
      let l ← t.walk t.workingDirectory p.steps.dropLast
      t.checkDirectory l
      pure (l, p.steps.getLast?.getD .root)

end FileTree

end GameExport
