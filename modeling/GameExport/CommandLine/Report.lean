import GameExport.Export
import GameExport.Staging

/-! # Reporting what failed

A command that fails says what it could not do and, below that, the causes one after the other.
They are numbered if there are more than one.
-/

namespace GameExport.CommandLine

/-- A message, and its causes from the nearest to the first. -/
structure Report where
  message : String
  causes : List String := []
  deriving DecidableEq

namespace Report

def within (r : Report) (message : String) : Report := ⟨message, r.message :: r.causes⟩

def ofMessages : List String → Report
  | [] => ⟨"", []⟩
  | m :: ms => ⟨m, ms⟩

def ofFailure (f : Failure) : Report := ofMessages f.messages

def ofFileError (e : FileError) : Report := ⟨e.message, []⟩

def ofConfigError (e : ConfigError) : Report := ⟨e.message, [e.cause]⟩

def ofWorkspaceError (e : WorkspaceError) : Report :=
  ⟨e.message, (e.cause?.map FileError.message).toList⟩

def ofStageError (e : StageError) : Report := ⟨e.message, e.cause?.toList⟩

def ofExportError (e : ExportError) : Report := ofMessages e.messages

/-- The lines of a text after the first one are moved to the right. -/
def indented (blanks : Nat) (text : String) : List Char :=
  text.toList.flatMap fun c => if c = '\n' then '\n' :: List.replicate blanks ' ' else [c]

/-- A number in a column of five places. -/
def numbered (n : Nat) (text : String) : List Char :=
  let digits := Nat.toDigits 10 n
  List.replicate (5 - digits.length) ' ' ++ digits ++ [':', ' '] ++ indented 7 text

def causeLines : List String → List (List Char)
  | [] => []
  | [cause] => [' ' :: ' ' :: ' ' :: ' ' :: indented 4 cause]
  | causes => causes.zipIdx.map fun c => numbered c.2 c.1

def text (r : Report) : String :=
  "Error: " ++ r.message ++ "\n" ++
    if r.causes = [] then ""
    else "\nCaused by:\n" ++
      String.ofList ((causeLines r.causes).flatMap fun line => line ++ ['\n'])

end Report

end GameExport.CommandLine
