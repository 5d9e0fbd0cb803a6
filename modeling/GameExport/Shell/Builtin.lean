import GameExport.Shell.Redirection

/-! # Commands of the shell itself

Some commands change the state of the script: its arguments and variables, its working directory,
what it does about signals, and where it goes on. Some of them are special: when one of these
fails, the script ends.
-/

namespace GameExport.Shell

open Text.Utf8 (encode)

/-- A command of the shell, given its arguments. -/
abbrev Builtin := List String → State → State

namespace Builtin

/-- A number in digits that is not too large. -/
def number? (s : String) : Option Nat :=
  if s ≠ "" ∧ s.toList.all Char.isDigit then
    let n := Nat.ofDigitChars 10 s.toList 0
    if n < 0x80000000 then some n else none
  else none

/-- Goes on with the number that is the only argument, if there is one. -/
def withNumber (name : String) (f : Option Nat → State → State) : Builtin := fun args s =>
  match args with
  | [] => f none s
  | a :: _ =>
      match number? a with
      | some n => f (some n) s
      | none => s.refuse (name ++ ": Illegal number: " ++ a)

/-! ## Going elsewhere -/

/-- Ends the script, with a code if one is given; only eight bits of it count. -/
def leaveScript : Builtin := withNumber "exit" fun n s =>
  s.stop (.code ((n.map (·.toUInt8)).getD s.status))

/-- Ends a function, or the script outside of all functions. -/
def leaveFunction : Builtin := withNumber "return" fun n s =>
  { s with status := (n.map (·.toUInt8)).getD s.status, departure := some .function }

/-- Leaves so many loops, or begins the next round of the last of them. -/
def leaveLoop (name : String) (again : Bool) : Builtin := withNumber name fun n s =>
  if s.loops = 0 then { s with status := 0 }
  else
    { s with status := 0, departure := some (.loop (min (max 1 (n.getD 1)) s.loops) again) }

def cd : Builtin := fun args s =>
  let target := (args.filter (!·.startsWith "-")).headD "/"
  match s.tree.locate target with
  | .ok l =>
      if s.tree.isDirectoryAt l then
        { s with tree := { s.tree with workingDirectory := l }, status := 0 }
      else s.fail ("cd: can't cd to " ++ target)
  | .error _ => s.fail ("cd: can't cd to " ++ target)

/-! ## Arguments and variables -/

def shift : Builtin := withNumber "shift" fun n s =>
  if s.arguments.length < n.getD 1 then s.refuse "shift: can't shift that many"
  else { s with arguments := s.arguments.drop (n.getD 1), status := 0 }

/-- Changes settings, and sets the arguments if there are any behind the options. -/
def set : Builtin := fun args s =>
  match Settings.read false s.settings args with
  | .error text => s.refuse ("set: " ++ text)
  | .ok (choice, rest) =>
      { s with
        settings :=
          if choice.ended = some "-" then (choice.settings.turn false 'x').turn false 'v'
          else choice.settings
        arguments := if rest ≠ [] ∨ choice.ended = some "--" then rest else s.arguments
        status := 0 }

/-- The name and, behind an equals sign, the value of an argument. -/
def assignmentOf (arg : String) : String × Option String :=
  let name := arg.toList.takeWhile (· ≠ '=')
  (String.ofList name,
    if arg.toList.contains '=' then some (String.ofList (arg.toList.drop (name.length + 1)))
    else none)

/-- Gives values to the arguments that are assignments, after something was done for each name. -/
def assignEach (prepare : String → State → State) : Builtin := fun args s =>
  let s := (args.filter (!·.startsWith "-")).foldl (fun s arg =>
    let (name, value) := assignmentOf arg
    let s := prepare name s
    match value with
    | some v => s.assign name v
    | none => s) s
  { s with status := 0 }

/-- Programs that the script starts get these variables. -/
def publish : Builtin := assignEach fun name s => { s with exported := name :: s.exported }

def readonly : Builtin := assignEach fun _ s => s

/-- Variables of a function: their values are hidden until it ends. -/
def hide : Builtin := fun args s =>
  match s.hidden with
  | none => s.refuse "local: not in a function"
  | some _ =>
      assignEach (fun name s =>
        { s with hidden := s.hidden.map ((name, s.bindings.lookup name) :: ·) }) args s

def unset : Builtin := fun args s =>
  let names := args.filter (!·.startsWith "-")
  if args.contains "-f" then
    { s with functions := s.functions.filter fun f => !names.contains f.1, status := 0 }
  else { names.foldl State.unset s with status := 0 }

/-! ## Reading -/

/-- One line: its bytes with whether they are quoted, what follows it, and whether it ended. A
backslash quotes the next byte and continues the line if that is its end. -/
def readLine (raw : Bool) : List UInt8 → List (UInt8 × Bool) × List UInt8 × Bool
  | [] => ([], [], false)
  | 10 :: s => ([], s, true)
  | b :: s =>
      if b = 92 ∧ !raw then
        match s with
        | [] => ([], [], false)
        | 10 :: s => readLine raw s
        | c :: s =>
            let (line, rest) := readLine raw s
            ((c, true) :: line, rest)
      else
        let (line, rest) := readLine raw s
        ((b, false) :: line, rest)

def isBlankByte (b : UInt8 × Bool) : Bool := !b.2 && (b.1 = 32 || b.1 = 9)

/-- The values of so many variables in a line: fields between blanks, the last one with all that
is left. -/
def sharesOf : Nat → List (UInt8 × Bool) → List String
  | 0, _ => []
  | n + 1, line =>
      let line := line.dropWhile isBlankByte
      let text (bytes : List (UInt8 × Bool)) : String :=
        String.ofList (Text.Utf8.decode (bytes.map Prod.fst))
      if n = 0 then [text (line.reverse.dropWhile isBlankByte).reverse]
      else text (line.takeWhile (!isBlankByte ·)) :: sharesOf n (line.dropWhile (!isBlankByte ·))

def read : Builtin := fun args s =>
  let names := args.filter (!·.startsWith "-")
  if names = [] then s.fail "read: arg count"
  else
    let (line, rest, ended) := readLine (args.contains "-r") s.input
    let s := (names.zip (sharesOf names.length line)).foldl (fun s b => s.assign b.1 b.2)
      (s.leaveInput rest)
    { s with status := if ended then 0 else 1 }

/-! ## Signals -/

/-- The script gets a signal. It may ignore or catch it, unless that is impossible. -/
def deliver (signal : Nat) (s : State) : State :=
  if signal = 0 then s
  else
    match if Signal.inexorable.contains signal then none else s.traps.lookup signal with
    | some "" => s
    | some _ => { s with received := s.received ++ [signal] }
    | none => if Signal.harmless.contains signal then s else s.stop (.signal signal)

/-- Sends a signal to the script itself; there are no other processes. -/
def kill : Builtin := fun args s =>
  if args.head? = some "-l" then
    match Signal.listing args.tail with
    | .ok text => { s with status := 0 }.emit 1 (encode text)
    | .error text => s.fail ("kill: " ++ text)
  else match Signal.request args with
  | .error text => s.fail ("kill: " ++ text)
  | .ok (signal, targets) =>
      targets.foldl (fun s target =>
        if s.departure.isSome then s
        else if target = processNumber then deliver signal s
        else if (target.toList.filter (· ≠ '-')).all Char.isDigit ∧ target ≠ "" then
          { s.complain "kill: No such process\n" with status := 1 }
        else if target.startsWith "%" then s.fail ("kill: No such job: " ++ target)
        else s.fail ("kill: Illegal number: " ++ target)) { s with status := 0 }

/-- The number of a signal that can be caught; the end of the script counts as one. -/
def trapNumber? (name : String) : Option Nat :=
  if name.toUpper = "EXIT" then some 0 else Signal.ofName? name.toList

/-- Sets or takes back what is done about signals. -/
def trap : Builtin := fun args s =>
  let args := if args.head? = some "--" then args.tail else args
  let (action, names) := match args with
    | [] => (none, [])
    | [name] => (none, [name])
    | "-" :: names => (none, names)
    | action :: names => (some action, names)
  names.foldl (fun s name =>
    match trapNumber? name with
    | some n =>
        let others := s.traps.filter (·.1 ≠ n)
        { s with traps := action.toList.map (fun a => (n, a)) ++ others }
    | none => { s.emit 2 (encode ("trap: " ++ name ++ ": bad trap\n")) with status := 1 })
    { s with status := 0 }

/-! ## All of them -/

/-- There is nothing to wait for or to set. -/
def idle : Builtin := fun _ s => { s with status := 0 }

def all : List (String × Builtin) :=
  [("exit", leaveScript), ("return", leaveFunction), ("break", leaveLoop "break" false),
   ("continue", leaveLoop "continue" true), ("cd", cd), ("shift", shift), ("set", set),
   ("export", publish), ("readonly", readonly), ("local", hide), ("unset", unset),
   ("read", read), ("kill", kill), ("trap", trap), ("wait", idle), ("umask", idle),
   ("ulimit", idle), ("times", idle), ("hash", idle), ("alias", idle)]

end Builtin

end GameExport.Shell
