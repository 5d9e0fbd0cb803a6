import GameExport.Shell.Setting
import GameExport.Shell.Toolbox

/-! # Looking programs up

A program is named by a path or, without a slash, by the name of a system program. A file can be
started if it may be run and its first line names a system program that reads it.
-/

namespace GameExport.Shell

/-- Names of programs that run scripts. -/
def shellNames : List String := ["sh", "dash", "bash"]

def systemDirectories : List String := ["/bin/", "/usr/bin/"]

/-- The system program of a name or of a path. -/
def systemProgram? (program : String) : Option String :=
  let name :=
    if program.toList.contains '/' then
      systemDirectories.findSome? fun d =>
        (List.isPrefixOf? d.toList program.toList).map String.ofList
    else some program
  name.filter fun n => shellNames.contains n || (Tool.program? n).isSome || n = "env"

/-- What comes of a program and its arguments: a shell, a tool, or a refusal to start anything. Each
is called by a name of its own. -/
inductive Target where
  | shell (called : String) (args : List String)
  | tool (called : String) (tool : Tool) (args : List String)
  | refusal (status : UInt8) (complaint : String)

namespace Target

/-- What a system program comes to. One of them starts another program. -/
def ofSystem (called name : String) (args : List String) : Target :=
  let direct (called name : String) (args : List String) : Option Target :=
    if shellNames.contains name then some (.shell called args)
    else (Tool.program? name).map fun tool => .tool called tool args
  match direct called name args, args with
  | some target, _ => target
  | none, inner :: rest =>
      if inner.startsWith "--" then
        .refusal 125 (called ++ ": unrecognized option '" ++ inner ++ "'\nTry '" ++ called ++
          " --help' for more information.\n")
      else (direct inner inner rest).getD
        (.refusal 127 (called ++ ": '" ++ inner ++ "': No such file or directory\n"))
  | none, [] => .refusal 0 ""

/-- The program named on the first line of a script, and the one argument that may follow it. -/
def interpreter? (content : List Char) : Option (String × List String) :=
  match content with
  | '#' :: '!' :: s =>
      let isBlank (c : Char) := c = ' ' || c = '\t'
      let line := (s.takeWhile (· ≠ '\n')).dropWhile isBlank
      let name := line.takeWhile (!isBlank ·)
      let rest := (line.dropWhile (!isBlank ·)).dropWhile isBlank
      let arg := (rest.reverse.dropWhile isBlank).reverse
      if name = [] then none
      else some (String.ofList name, if arg = [] then [] else [String.ofList arg])
  | _ => none

def ofFile (t : FileTree) (program : String) (args : List String) : Except FileError Target := do
  match t.get? (← t.locate program) with
  | some (.file content true) =>
      match interpreter? (Text.Utf8.decode content.toList) with
      | none => throw .badFormat
      | some (name, options) =>
          match (systemProgram? name).filter fun _ => name.toList.contains '/' with
          | some system => pure (ofSystem name system (options ++ program :: args))
          | none => throw .notFound
  | some _ => throw .permissionDenied
  | none => throw .notFound

/-- What a program comes to. Dots name directories among the system programs, which cannot be
run. -/
def find (t : FileTree) (program : String) (args : List String) : Except FileError Target :=
  match systemProgram? program with
  | some name => .ok (ofSystem program name args)
  | none =>
      if program.toList.contains '/' then ofFile t program args
      else if program = "." ∨ program = ".." then .error .permissionDenied
      else .error .notFound

end Target

/-! ## Scripts -/

/-- A script that a shell is to run, under a name and with arguments. -/
structure Task where
  name : String
  script : List Char
  arguments : List String
  settings : Settings := []

/-- The text of a file that a shell is to run. -/
def scriptAt (t : FileTree) (path : String) : Option (List Char) :=
  match Disk.read t path with
  | .ok content => some (Text.Utf8.decode content.toList)
  | .error _ => none

/-- What a shell is to run: a text, or else a file. Options stand in front. -/
def Task.ofArguments (program : String) (t : FileTree) (args : List String) : Except String Task :=
  let refusal (text : String) : Except String Task := .error (program ++ ": 0: " ++ text ++ "\n")
  match Settings.read true [] args with
  | .error text => refusal text
  | .ok (choice, []) =>
      if choice.takesText then refusal "-c requires an argument"
      else .ok ⟨program, [], [], choice.settings⟩
  | .ok (choice, first :: rest) =>
      if choice.takesText then
        .ok ⟨rest.headD program, first.toList, rest.tail, choice.settings⟩
      else match scriptAt t first with
        | some script => .ok ⟨first, script, rest, choice.settings⟩
        | none => refusal ("cannot open " ++ first ++ ": No such file")

end GameExport.Shell
