import GameExport.Shell.Channel
import GameExport.Shell.Command
import GameExport.Shell.Setting
import GameExport.Shell.Signal

/-! # The state of a script

A script changes files, its arguments and its variables. It writes to streams, which lead to
channels. When it leaves a loop, a function or itself, the commands that follow are passed over.
-/

namespace GameExport.Shell

open Text.Utf8 (encode)

/-- Why the commands that follow are passed over. A loop is left or, if it goes on, its next round
begins. -/
inductive Departure where
  | script (status : ExitStatus)
  | function
  | loop (levels : Nat) (again : Bool)
  deriving DecidableEq

/-- Where a script stands. Within a text that a command runs, the command speaks. In a function
there are values that it hides by variables of its own; signals that a script catches are received
first and dealt with after the command. -/
structure State where
  tree : FileTree
  name : String
  arguments : List String
  line : Nat := 0
  speaker : String := ""
  bindings : List (String × String) := []
  exported : List String := []
  functions : List (String × Command) := []
  hidden : Option (List (String × Option String)) := none
  loops : Nat := 0
  traps : List (Nat × String) := []
  received : List Nat := []
  channels : Array Channel := #[.source [], .collector ByteArray.empty, .collector ByteArray.empty]
  streams : List (Nat × Nat) := [(0, 0), (1, 1), (2, 2)]
  status : UInt8 := 0
  departure : Option Departure := none
  settings : Settings := []

/-- The number by which the script knows itself. -/
def processNumber : String := "4242"

namespace State

/-! ## Streams -/

/-- The stream of a number leads to the channel at a position. -/
def lead (s : State) (stream channel : Nat) : State :=
  { s with streams := (stream, channel) :: s.streams.filter (·.1 ≠ stream) }

/-- The stream of a number leads nowhere any more. -/
def close (s : State) (stream : Nat) : State :=
  { s with streams := s.streams.filter (·.1 ≠ stream) }

/-- The stream of a number leads to a new channel. -/
def attach (s : State) (stream : Nat) (c : Channel) : State :=
  { s with channels := s.channels.push c }.lead stream s.channels.size

/-- Writes to a stream. One that leads nowhere takes nothing. -/
def emit (s : State) (stream : Nat) (bytes : List UInt8) : State :=
  match s.streams.lookup stream with
  | none => s
  | some i =>
      match s.channels[i]? with
      | none => s
      | some c =>
          let (c, tree) := c.write ⟨bytes.toArray⟩ s.tree
          { s with tree, channels := s.channels.setIfInBounds i c }

/-- What has been written to the channel at a position and collected there. -/
def collected (s : State) (channel : Nat) : List UInt8 :=
  match s.channels[channel]? with
  | some (.collector written) => written.toList
  | _ => []

/-- What can be read from the first stream. -/
def input (s : State) : List UInt8 :=
  match (s.streams.lookup 0).bind (s.channels[·]?) with
  | some (.source rest) => rest
  | _ => []

/-- The first stream with so much left to be read, if it leads to something that is read. -/
def leaveInput (s : State) (rest : List UInt8) : State :=
  match s.streams.lookup 0 with
  | none => s
  | some i =>
      match s.channels[i]? with
      | some (.source _) => { s with channels := s.channels.setIfInBounds i (.source rest) }
      | _ => s

/-! ## Values -/

def assign (s : State) (name value : String) : State :=
  { s with bindings := (name, value) :: s.bindings.filter (·.1 ≠ name) }

def unset (s : State) (name : String) : State :=
  { s with bindings := s.bindings.filter (·.1 ≠ name) }

/-- Gives a variable the value that it had, or none. -/
def restore (s : State) (binding : String × Option String) : State :=
  match binding.2 with
  | some value => s.assign binding.1 value
  | none => s.unset binding.1

def workingPath (s : State) : String := "/" ++ "/".intercalate s.tree.workingDirectory.reverse

/-- The value of a parameter, unless it is not set. -/
def value? (s : State) (name : String) : Option String :=
  match name with
  | "@" => some (" ".intercalate s.arguments)
  | "*" => some (" ".intercalate s.arguments)
  | "#" => some (toString s.arguments.length)
  | "?" => some (toString s.status.toNat)
  | "$" => some processNumber
  | "-" => some s.settings.letters
  | "0" => some s.name
  | _ =>
      match name.toNat?, s.bindings.lookup name with
      | some n, _ => s.arguments[n - 1]?
      | none, some value => some value
      | none, none => if name = "PWD" then some s.workingPath else none

/-! ## Settings -/

/-- A command that fails ends the script. -/
def failsFast (s : State) : Bool := s.settings.contains 'e'

/-- Parameters must be set. -/
def needsValues (s : State) : Bool := s.settings.contains 'u'

/-- Fields can stand for paths. -/
def takesPatterns (s : State) : Bool := !s.settings.contains 'f'

/-- Commands are shown before they are run. -/
def isTraced (s : State) : Bool := s.settings.contains 'x'

/-- Shows a command on the stream for complaints as it led in an earlier state. -/
def trace (s earlier : State) (words : List String) : State :=
  if s.isTraced then
    let mark := (s.bindings.lookup "PS4").getD "+ "
    let shown := { s with streams := earlier.streams }.emit 2
      (encode (mark ++ " ".intercalate words ++ "\n"))
    { shown with streams := s.streams }
  else s

/-! ## Leaving and failing -/

def stop (s : State) (status : ExitStatus) : State :=
  { s with departure := some (.script status) }

/-- Says what is wrong, with the place in the script. -/
def complain (s : State) (text : String) : State :=
  s.emit 2 (encode (s.name ++ ": " ++ toString s.line ++ ": " ++ s.speaker ++ text ++ "\n"))

/-- Says what is wrong; the command has failed. -/
def fail (s : State) (text : String) : State := { s.complain text with status := 2 }

def refuse (s : State) (text : String) : State := (s.complain text).stop (.code 2)

/-- The code with which the script ends if it ends here. -/
def code (s : State) : UInt8 :=
  match s.departure with
  | some (.script (.code n)) => n
  | _ => s.status

/-- Runs something in a copy of the script: of what it changes only files and what has been read
and written stay changed. A signal ends the script itself. -/
def apart (s : State) (f : State → State) : State :=
  let r := f { s with traps := s.traps.filter (·.2 = "") }
  { s with
    tree := { r.tree with workingDirectory := s.tree.workingDirectory }
    channels := r.channels
    status := r.code
    departure := match r.departure with
      | some (.script (.signal n)) => some (.script (.signal n))
      | _ => none }

end State

end GameExport.Shell
