import GameExport.Disk.Files
import GameExport.Text.Blank

/-! # Programs

A program is given arguments, changes files and ends with a status. It may fail to start at all.
-/

namespace GameExport

/-- How a program ended: by itself with a code, or by a signal. -/
inductive ExitStatus where
  | code (n : UInt8)
  | signal (n : Nat)
  deriving DecidableEq

namespace ExitStatus

def isSuccess (s : ExitStatus) : Bool := s = .code 0

/-- Names of signals. Those with higher numbers have none that is told. -/
def signalNames : List (Nat × String) :=
  [(1, "SIGHUP"), (2, "SIGINT"), (3, "SIGQUIT"), (4, "SIGILL"), (5, "SIGTRAP"), (6, "SIGABRT"),
   (7, "SIGBUS"), (8, "SIGFPE"), (9, "SIGKILL"), (10, "SIGUSR1"), (11, "SIGSEGV"),
   (12, "SIGUSR2"), (13, "SIGPIPE"), (14, "SIGALRM"), (15, "SIGTERM"), (16, "SIGSTKFLT"),
   (17, "SIGCHLD"), (18, "SIGCONT"), (19, "SIGSTOP"), (20, "SIGTSTP"), (21, "SIGTTIN"),
   (22, "SIGTTOU"), (23, "SIGURG"), (24, "SIGXCPU"), (25, "SIGXFSZ"), (26, "SIGVTALRM"),
   (27, "SIGPROF"), (28, "SIGWINCH"), (29, "SIGIO"), (30, "SIGPWR"), (31, "SIGSYS")]

def text : ExitStatus → String
  | .code n => "exit status: " ++ toString n.toNat
  | .signal n =>
      match signalNames.lookup n with
      | some name => "signal: " ++ toString n ++ " (" ++ name ++ ")"
      | none => "signal: " ++ toString n

end ExitStatus

/-- What a program leaves behind besides its changes to files. -/
structure ProgramResult where
  status : ExitStatus
  output : List UInt8 := []
  complaints : List UInt8 := []
  deriving DecidableEq

/-- What the program wrote to complain, as text without blanks around it. -/
def ProgramResult.complaint (r : ProgramResult) : String :=
  String.ofList (Text.trim (Text.Utf8.decode r.complaints))

/-- Starts the named program with arguments and waits for its end. -/
abbrev ProgramRunner := String → List String → Disk.Operation ProgramResult

end GameExport
