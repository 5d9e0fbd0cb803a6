import GameExport.Program

/-! # Signals

A script names a signal by its number or by its name, which has no `SIG` in front and is taken in
upper and lower case. Signals without a name of their own are counted from the first or the last
of the real-time signals.
-/

namespace GameExport.Shell.Signal

/-- Signals have numbers below this one. -/
def bound : Nat := 65

/-- The signal that asks a program to end. -/
def terminate : Nat := 15

def realTimeNames : List (Nat × String) :=
  (34, "RTMIN") :: (List.range 15).map (fun k => (35 + k, "RTMIN+" ++ toString (k + 1))) ++
    (List.range 14).map (fun k => (50 + k, "RTMAX-" ++ toString (14 - k))) ++ [(64, "RTMAX")]

/-- Names by which a script can send signals. The number 16 is without one. -/
def names : List (Nat × String) :=
  (ExitStatus.signalNames.filter (·.1 ≠ 16)).map
    (fun s => (s.1, String.ofList (s.2.toList.drop 3))) ++ realTimeNames

/-- The signal of a number or a name. -/
def ofName? (name : List Char) : Option Nat :=
  if name ≠ [] ∧ name.all Char.isDigit then
    let n := Nat.ofDigitChars 10 name 0
    if n < bound then some n else none
  else (names.find? fun s => s.2 = (String.ofList name).toUpper).map Prod.fst

/-- Signals that do not end the program which gets them: it is told something or it is to pause. -/
def harmless : List Nat := [17, 18, 19, 20, 21, 22, 23, 28]

/-- Signals that no program can catch. -/
def inexorable : List Nat := [9, 19]

/-- What a shell says about a program that a signal has ended. Two signals are passed over. -/
def report? (signal : Nat) : Option String :=
  if signal = 2 ∨ signal = 13 then none
  else if 34 ≤ signal then some ("Real-time signal " ++ toString (signal - 34))
  else
    [(1, "Hangup"), (3, "Quit"), (4, "Illegal instruction"), (5, "Trace/breakpoint trap"),
     (6, "Aborted"), (7, "Bus error"), (8, "Floating point exception"), (9, "Killed"),
     (10, "User defined signal 1"), (11, "Segmentation fault"), (12, "User defined signal 2"),
     (14, "Alarm clock"), (15, "Terminated"), (16, "Stack fault"),
     (24, "CPU time limit exceeded"), (25, "File size limit exceeded"),
     (26, "Virtual timer expired"), (27, "Profiling timer expired"), (29, "I/O possible"),
     (30, "Power failure"), (31, "Bad system call")].lookup signal

/-! ## Listing -/

/-- The name of a signal; some have none but their number. -/
def nameOf (signal : Nat) : String := (names.lookup signal).getD (toString signal)

/-- What `kill -l` writes: the names of all signals, or of the one that has ended a program with
the given status. -/
def listing (args : List String) : Except String String :=
  match args with
  | [] => .ok (String.join ((List.range bound).map fun k => nameOf k ++ "\n"))
  | status :: _ =>
      let n := Nat.ofDigitChars 10 status.toList 0
      if status = "" ∨ !status.toList.all Char.isDigit then .error ("Illegal number: " ++ status)
      else if n % 128 ≠ 0 ∧ n % 128 < bound then .ok (nameOf (n % 128) ++ "\n")
      else .error ("invalid signal number or exit status: " ++ status)

/-! ## Sending -/

def usage : String :=
  "Usage: kill [-s sigspec | -signum | -sigspec] [pid | job]... or\nkill -l [exitstatus]"

/-- The signal that a name stands for in a call of `kill`. -/
def named (name : List Char) : Except String Nat :=
  match ofName? name with
  | some n => .ok n
  | none => .error ("invalid signal number or name: " ++ String.ofList name)

/-- Reads the options in front of the targets: the signal that is to be sent, and the targets. -/
def readOptions (signal : Nat) : List String → Except String (Nat × List String)
  | [] => .ok (signal, [])
  | ["-s"] => .error "No arg for -s option"
  | "-s" :: name :: rest => do readOptions (← named name.toList) rest
  | "--" :: rest => .ok (signal, rest)
  | arg :: rest =>
      match arg.toList with
      | '-' :: 's' :: name => do readOptions (← named name) rest
      | '-' :: c :: _ => .error ("Illegal option -" ++ String.singleton c)
      | _ => .ok (signal, arg :: rest)

/-- The signal that a call of `kill` sends, and the targets. -/
def request (args : List String) : Except String (Nat × List String) := do
  let (signal, targets) ← match args with
    | first :: rest =>
        match first.toList with
        | '-' :: name =>
            match ofName? name with
            | some n => pure (n, rest)
            | none => readOptions terminate args
        | _ => pure (terminate, args)
    | [] => pure (terminate, [])
  if targets = [] then throw usage else pure (signal, targets)

end GameExport.Shell.Signal
