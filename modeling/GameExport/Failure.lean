import GameExport.Json.Error
import GameExport.Program

/-! # Failures of an export

A failure has a first cause, and the activities during which it happened around that. A message
tells the activities from the outermost to the innermost, and then the cause.
-/

namespace GameExport

inductive Activity where
  | creating (p : Path)
  | writing (p : Path)
  | writingMetadata (p : Path)
  | decompiling (assembly : String)
  | running (program : String)
  | readingManifest (p : Path)
  | parsingManifest (p : Path)
  deriving DecidableEq

def Activity.message : Activity → String
  | .creating p => "Failed to create " ++ p.text
  | .writing p => "Failed to write " ++ p.text
  | .writingMetadata p => "Failed to write metadata for " ++ p.text
  | .decompiling assembly => "Failed to decompile " ++ assembly
  | .running program => "Failed to run " ++ program
  | .readingManifest p => "Failed to read manifest " ++ p.text
  | .parsingManifest p => "Failed to parse manifest " ++ p.text

/-- Why a stage of an export failed. A helper that has its own reasons refuses in its own words. -/
inductive Failure where
  | file (e : FileError)
  | document (e : Json.ReadError)
  | exited (program : String) (status : ExitStatus) (complaint : String)
  | refused (reason : String)
  | during (activity : Activity) (cause : Failure)
  deriving DecidableEq

namespace Failure

/-- The messages of a failure, the outermost first. -/
def messages : Failure → List String
  | .file e => [e.message]
  | .document e => [e.message]
  | .exited program status complaint =>
      [program ++ " exited with " ++ status.text ++ ": " ++ complaint]
  | .refused reason => [reason]
  | .during activity cause => activity.message :: cause.messages

end Failure

namespace Action

variable {σ α : Type}

def during (activity : Activity) (a : Action σ Failure α) : Action σ Failure α :=
  a.mapError (.during activity)

end Action

end GameExport
