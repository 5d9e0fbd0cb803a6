/-! # What a file system refuses

An operation on files fails for a reason that the system has a number for, or because the data it
was given are of no use to it. The wording of each reason ends with its number.
-/

namespace GameExport

inductive FileError where
  | notFound
  | badFormat
  | permissionDenied
  | busy
  | alreadyExists
  | notDirectory
  | isDirectory
  | invalidArgument
  | nameTooLong
  | notEmpty
  | zeroInPath
  | zeroInArgument
  | notText
  | badChecksum
  | badCompression
  deriving DecidableEq

namespace FileError

/-- The number that the system has for a reason. -/
def code : FileError → Option Nat
  | .notFound => some 2
  | .badFormat => some 8
  | .permissionDenied => some 13
  | .busy => some 16
  | .alreadyExists => some 17
  | .notDirectory => some 20
  | .isDirectory => some 21
  | .invalidArgument => some 22
  | .nameTooLong => some 36
  | .notEmpty => some 39
  | .zeroInPath => none
  | .zeroInArgument => none
  | .notText => none
  | .badChecksum => none
  | .badCompression => none

def description : FileError → String
  | .notFound => "No such file or directory"
  | .badFormat => "Exec format error"
  | .permissionDenied => "Permission denied"
  | .busy => "Device or resource busy"
  | .alreadyExists => "File exists"
  | .notDirectory => "Not a directory"
  | .isDirectory => "Is a directory"
  | .invalidArgument => "Invalid argument"
  | .nameTooLong => "File name too long"
  | .notEmpty => "Directory not empty"
  | .zeroInPath => "file name contained an unexpected NUL byte"
  | .zeroInArgument => "nul byte found in provided data"
  | .notText => "stream did not contain valid UTF-8"
  | .badChecksum => "Invalid checksum"
  | .badCompression => "corrupt deflate stream"

def message (e : FileError) : String :=
  match e.code with
  | some n => e.description ++ " (os error " ++ toString n ++ ")"
  | none => e.description

end FileError

end GameExport
