import GameExport.Path

/-! # Names of archived files

The name of an entry is a path to be followed from the folder into which the archive is unpacked.
A name that would lead out of that folder, at its end or on the way, is refused.
-/

namespace GameExport.Archive

/-- How many folders deep a walk is after a component, unless it leaves the folder it started
from. -/
def depthAfter (depth : Nat) : Path.Component → Option Nat
  | .root => none
  | .here => some depth
  | .up => if depth = 0 then none else some (depth - 1)
  | .name _ => some (depth + 1)

/-- The walk along components never leaves the folder it started from. -/
def staysInside (components : List Path.Component) : Bool :=
  (components.foldlM depthAfter 0).isSome

/-- A name that may be unpacked. -/
def isSafeName (name : String) : Bool :=
  !name.toList.contains '\x00' && staysInside (Path.mk name).components

/-- The name says that the entry is a folder. -/
def isFolderName (name : String) : Bool :=
  match name.toList.getLast? with
  | some c => c = '/' || c = '\\'
  | none => false

end GameExport.Archive
