import GameExport.Path.Segments

/-! # Paths

A path is a text. Joining keeps the texts as they are; only the operations on a file tree follow
the steps that a path spells.
-/

namespace GameExport

/-- A path as it is written. -/
structure Path where
  text : String
  deriving DecidableEq

namespace Path

/-- A part of a path that matters for what it is the path of. -/
inductive Component where
  | root
  | here
  | up
  | name (n : String)
  deriving DecidableEq

def isAbsolute (p : Path) : Bool := p.text.toList.head? = some '/'

/-- The right path behind the left one, with one slash between them unless one is there or the
left path is empty. An absolute right path stands for itself. -/
def join (p q : Path) : Path :=
  if q.isAbsolute then q
  else if p.text = "" ∨ p.text.toList.getLast? = some '/' then ⟨p.text ++ q.text⟩
  else ⟨p.text ++ "/" ++ q.text⟩

instance : Coe String Path := ⟨Path.mk⟩

/-- The path with a text put behind it. -/
def withSuffix (p : Path) (suffix : String) : Path := ⟨p.text ++ suffix⟩

def Component.text : Component → String
  | .root => "/"
  | .here => "."
  | .up => ".."
  | .name n => n

/-- The component that a part spells: a dot says nothing unless the path starts with it. -/
def componentOf (part : List Char) : Component :=
  if part = ['.'] then .here
  else if part = ['.', '.'] then .up
  else .name (String.ofList part)

/-- The components of a path. Empty parts, and dots that do not start a relative path, are none. -/
def components (p : Path) : List Component :=
  let parts := Path.parts '/' p.text.toList
  if p.isAbsolute then
    .root :: (parts.filter (· ≠ ['.'])).map componentOf
  else
    match parts with
    | [] => []
    | first :: rest =>
        if first = ['.'] then
          .here :: (rest.filter (· ≠ ['.'])).map componentOf
        else ((first :: rest).filter (· ≠ ['.'])).map componentOf

def ofComponents : List Component → Path
  | [] => ⟨""⟩
  | c :: cs =>
      cs.foldl (fun p c => p.join ⟨c.text⟩) ⟨c.text⟩

/-- The path without its last component. The root has nothing above it, and nothing is above an
empty path. -/
def parent (p : Path) : Option Path :=
  match p.components with
  | [] => none
  | [.root] => none
  | cs => some (ofComponents cs.dropLast)

/-- The paths that are left when components are taken away at the end, one by one. -/
def around (p : Path) : List Path :=
  let count := p.components.length - 1
  (List.range count).map fun i => ofComponents (p.components.take (count - i))

def fileName (p : Path) : Option String :=
  (nameAtEnd '/' '.' p.text.toList).map String.ofList

def extension (p : Path) : Option String :=
  ((nameAtEnd '/' '.' p.text.toList).bind (extensionOf '.')).map String.ofList

def normalized (s : String) : String :=
  String.ofList (s.toList.map fun c => if c = '\\' then '/' else c)

end Path

end GameExport
