import GameExport.Disk.Files
import GameExport.Shell.Pattern

/-! # Paths by pattern

A field of a command that holds pattern characters stands for the paths that it matches. Each part
between slashes is matched by itself, and names that start with a dot only by a pattern that does.
A field that matches nothing stands for itself.
-/

namespace GameExport.Shell.Glob

/-- Characters with whether they are quoted. -/
abbrev Field := List (Char × Bool)

def textOf (f : Field) : String := String.ofList (f.map Prod.fst)

/-- An unquoted character makes a pattern of the field. -/
def isPattern (f : Field) : Bool := f.any fun c => !c.2 && c.1 ∈ ['*', '?', '[']

def parts (f : Field) : List Field :=
  f.foldr (fun c ps =>
    if c.1 = '/' then [] :: ps
    else match ps with
      | [] => [[c]]
      | p :: ps => (c :: p) :: ps) [[]]

/-- The names in the directory of a path. -/
def namesIn (t : FileTree) (path : String) : List String :=
  match t.locate path with
  | .error _ => []
  | .ok l =>
      let names := (t.below l).filterMap fun e =>
        match e.1 with
        | [name] => some name
        | _ => none
      names.mergeSort (· ≤ ·)

/-- A part of a field matches a name. -/
def matchesName (part : Field) (name : String) : Bool :=
  (!name.startsWith "." || part.head?.map Prod.fst = some '.') &&
    Pattern.isMatch (Pattern.ofChars 0 part) name.toList

/-- The paths that continue a path by parts that match. -/
def continuations (t : FileTree) (path : String) : List Field → List String
  | [] => [path]
  | [last] =>
      if isPattern last then
        ((namesIn t (if path = "" then "." else path)).filter (matchesName last)).map (path ++ ·)
      else
        let whole := path ++ textOf last
        if last = [] ∨ t.contains whole then [whole] else []
  | part :: rest =>
      if isPattern part then
        ((namesIn t (if path = "" then "." else path)).filter (matchesName part)).flatMap
          fun name =>
            let inner := path ++ name
            if t.isDirectory inner then continuations t (inner ++ "/") rest else []
      else continuations t (path ++ textOf part ++ "/") rest

def paths (t : FileTree) (f : Field) : List String :=
  if isPattern f then
    match continuations t "" (parts f) with
    | [] => [textOf f]
    | found => found
  else [textOf f]

end GameExport.Shell.Glob
