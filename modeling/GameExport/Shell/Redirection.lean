import GameExport.Shell.Expansion

/-! # Redirecting streams

Redirections are made one after the other. One that fails leaves those before it in place, so that
the complaint about it goes where the stream for complaints leads by then.
-/

namespace GameExport.Shell

open Text.Utf8 (encode)

/-- Paths that name streams. -/
def streamOf? (path : String) : Option Nat :=
  [("/dev/stdin", 0), ("/dev/stdout", 1), ("/dev/stderr", 2), ("/dev/fd/0", 0), ("/dev/fd/1", 1),
   ("/dev/fd/2", 2)].lookup path

/-- How a file that cannot be opened is complained about. -/
def openComplaint (creating : Bool) (path : String) (e : FileError) : String :=
  match creating, e with
  | true, .notFound => "cannot create " ++ path ++ ": Directory nonexistent"
  | true, e => "cannot create " ++ path ++ ": " ++ e.description
  | false, .notFound => "cannot open " ++ path ++ ": No such file"
  | false, e => "cannot open " ++ path ++ ": " ++ e.description

/-- Opens a file for writing: at its start, with what it held gone, or at its end. -/
def openFile (appending : Bool) (path : Path) (t : FileTree) :
    Except FileError Channel × FileTree :=
  let content := match appending, Disk.read t path with
    | true, .ok before => before
    | _, _ => ByteArray.empty
  match (Disk.write path content).outcome t with
  | (.error e, t) => (.error e, t)
  | (.ok (), t) => ((t.locate path).map fun l => .file l (if appending then none else some 0), t)

namespace State

/-- Lets a stream lead where another one leads. -/
def duplicate (s : State) (stream : Nat) (target : String) : Except String Unit × State :=
  if target = "-" then (.ok (), s.close stream)
  else if target ≠ "" ∧ target.toList.all Char.isDigit then
    match s.streams.lookup (Nat.ofDigitChars 10 target.toList 0) with
    | some i => (.ok (), s.lead stream i)
    | none => (.error (target ++ ": Bad file descriptor"), s)
  else (.error "Bad fd number", s)

/-- Lets a stream lead to a file that is read. -/
def readFrom (s : State) (stream : Nat) (path : String) : Except String Unit × State :=
  if path = "/dev/null" then (.ok (), s.attach stream (.source []))
  else match streamOf? path with
    | some other => s.duplicate stream (toString other)
    | none =>
        match Disk.read s.tree path with
        | .ok content => (.ok (), s.attach stream (.source content.toList))
        | .error .isDirectory => (.ok (), s.attach stream .nowhere)
        | .error e => (.error (openComplaint false path e), s)

/-- Lets a stream lead to a file that is written. -/
def writeTo (s : State) (stream : Nat) (appending : Bool) (path : String) :
    Except String Unit × State :=
  if path = "/dev/null" then (.ok (), s.attach stream .nowhere)
  else match streamOf? path with
    | some other => s.duplicate stream (toString other)
    | none =>
        match openFile appending path s.tree with
        | (.ok c, tree) => (.ok (), { s with tree }.attach stream c)
        | (.error e, tree) => (.error (openComplaint true path e), { s with tree })

/-- Lets a stream lead to a target, as the kind of the redirection says. -/
def redirectTo (s : State) (stream : Nat) (kind : RedirectKind) (target : String) :
    Except String Unit × State :=
  match kind with
  | .document => (.ok (), s.attach stream (.source (encode target)))
  | .duplicate => s.duplicate stream target
  | .read => s.readFrom stream target
  | .write => s.writeTo stream false target
  | .append => s.writeTo stream true target

end State

def redirect (substitute : Substitute) : List Redirect → State → Except String Unit × State
  | [], s => (.ok (), s)
  | r :: rs, s =>
      let (target, s) := expandText substitute r.target s
      match s.redirectTo r.stream r.kind target with
      | (.ok (), s) => redirect substitute rs s
      | (.error complaint, s) => (.error complaint, s)

end GameExport.Shell
