import GameExport.Shell.Builtin
import GameExport.Shell.Lookup

/-! # Running a script

A script is run command by command. Its functions, and scripts within it, are run in the same way.
A script that takes too many steps is given up.
-/

namespace GameExport.Shell

open Text.Utf8 (encode)

namespace State

/-- The state in which a program finds itself that the script starts: it has the files and the
streams of the script, and its variables as far as they are for all. -/
def ofTask (s : State) (task : Task) : State where
  tree := s.tree
  name := task.name
  arguments := task.arguments
  bindings := s.bindings.filter fun b => s.exported.contains b.1
  exported := s.exported
  channels := s.channels
  streams := s.streams
  settings := task.settings

/-- Runs something with a stream that leads to a channel of its own, in a copy of the script. -/
def apartWith (s : State) (stream : Nat) (c : Channel) (f : State → State) : State :=
  { (s.attach stream c).apart f with streams := s.streams }

/-- Lets streams lead where they led in an earlier state. -/
def restoreStreams (s earlier : State) (redirects : List Redirect) : State :=
  redirects.foldl (fun s r =>
    match earlier.streams.lookup r.stream with
    | some i => s.lead r.stream i
    | none => s.close r.stream) s

/-- Ends a script whose failures count, if the last command failed. -/
def settle (tested : Bool) (s : State) : State :=
  if s.failsFast && !tested && s.status ≠ 0 && s.departure.isNone then s.stop (.code s.status)
  else s

/-- The state after one round of a loop, and whether there is another one. -/
def afterRound (s : State) : State × Bool :=
  match s.departure with
  | none => (s, true)
  | some (.loop (n + 2) again) => ({ s with departure := some (.loop (n + 1) again) }, false)
  | some (.loop _ again) => ({ s with departure := none }, again)
  | some _ => (s, false)

/-- Runs a tool, which has the name by which it is called. -/
def useTool (s : State) (called : String) (tool : Tool) (args : List String) : State :=
  let r := tool called args s.input s.tree
  ({ s with tree := r.tree, status := r.status }.emit 1 r.output).emit 2 r.complaints

/-- A name in front of what the shell itself says. -/
def shellName (s : State) (name : String) : String :=
  s.name ++ ": " ++ toString s.line ++ ": " ++ name

def describe (s : State) (name : String) : State :=
  if (s.functions.lookup name).isSome ∨ Command.special.contains name ∨
      (Builtin.all.lookup name).isSome ∨ (Tool.ofShell.lookup name).isSome then
    { s with status := 0 }.emit 1 (encode (name ++ "\n"))
  else if (systemProgram? name).isSome then
    { s with status := 0 }.emit 1 (encode ("/usr/bin/" ++ name ++ "\n"))
  else { s with status := 127 }

end State

/-- Output without the line breaks at its end. -/
def trimLines (bytes : List UInt8) : List Char :=
  Text.Utf8.decode (bytes.reverse.dropWhile (· = 10)).reverse

/-- A call puts in the output of a script, so that its status is known without a tool. -/
def Call.hasOutput (c : Call) : Bool :=
  (c.words ++ c.assignments.map Prod.snd).any fun w => w.any fun
    | .output _ _ _ => true
    | _ => false

mutual

/-- Runs a command with so many steps left. The failure of a command that is tested does not end
the script. -/
def run : Nat → Bool → Command → State → State
  | 0, _, _, s => s.stop (.signal 9)
  | n + 1, tested, c, s =>
      if s.departure.isSome then s
      else
        match c with
        | .call line c => (runTraps n (runCall n tested c { s with line })).settle tested
        | .pipe first second =>
            let position := s.channels.size
            let r := s.apartWith 1 (.collector ByteArray.empty) fun s => run n tested first s
            if r.departure.isSome then r
            else
              (r.apartWith 0 (.source (r.collected position)) fun s =>
                run n tested second s).settle tested
        | .negate c =>
            let s := run n true c s
            if s.departure.isSome then s else { s with status := if s.status = 0 then 1 else 0 }
        | .both first second =>
            let s := run n true first s
            if s.status = 0 then run n tested second s else s
        | .either first second =>
            let s := run n true first s
            if s.status = 0 then s else run n tested second s
        | .sequence first second => run n tested second (run n tested first s)
        | .choose test yes no =>
            let s := run n true test s
            if s.departure.isSome then s
            else if s.status = 0 then run n tested yes { s with status := 0 }
            else run n tested no { s with status := 0 }
        | .loop untilTrue test body =>
            { runRounds n tested untilTrue test body 0 { s with loops := s.loops + 1 } with
              loops := s.loops }
        | .each line name words body =>
            let (values, s) := expandWords (runInside n) words { s with line }
            { runEach n tested name values body { s with loops := s.loops + 1, status := 0 } with
              loops := s.loops }
        | .select line subject arms =>
            let (text, s) := expandText (runInside n) subject { s with line }
            runArms n tested text.toList arms { s with status := 0 }
        | .apart c => (s.apart fun s => run n tested c s).settle tested
        | .define name body =>
            { s with
              functions := (name, body) :: s.functions.filter (·.1 ≠ name)
              status := 0 }
        | .redirected line c redirects =>
            match redirect (runInside n) redirects { s with line } with
            | (.error text, r) => ((r.fail text).restoreStreams s redirects).settle tested
            | (.ok (), r) => (run n tested c r).restoreStreams s redirects
        | .flawed line text => { s with line }.refuse ("Syntax error: " ++ text)
termination_by n => (n, 0)

/-- Runs the rounds of a loop. It ends with the given status if there is none. -/
def runRounds : Nat → Bool → Bool → Command → Command → UInt8 → State → State
  | 0, _, _, _, _, _, s => s.stop (.signal 9)
  | n + 1, tested, untilTrue, test, body, last, s =>
      let (s, goesOn) := (run n true test s).afterRound
      if !goesOn then s
      else if (s.status = 0) = untilTrue then { s with status := last }
      else
        let (s, goesOn) := (run n tested body s).afterRound
        if goesOn then runRounds n tested untilTrue test body s.status s else s
termination_by n => (n, 0)

def runEach : Nat → Bool → String → List String → Command → State → State
  | _, _, _, [], _, s => s
  | n, tested, name, value :: values, body, s =>
      if s.departure.isSome then s
      else
        let (s, goesOn) := (run n tested body (s.assign name value)).afterRound
        if goesOn then runEach n tested name values body s else s
termination_by n _ _ values => (n, values.length + 1)

/-- Runs the first arm that has a pattern for the text. -/
def runArms : Nat → Bool → List Char → List (List Word × Command) → State → State
  | _, _, _, [], s => s
  | n, tested, text, (patterns, body) :: arms, s =>
      let (found, s) := matchesAny (runInside n) text patterns s
      if found then run n tested body s else runArms n tested text arms s
termination_by n _ _ arms => (n, arms.length + 2)

/-- Runs a text as a part of the script, which starts on the given line. -/
def runText (n : Nat) (tested : Bool) (line : Nat) (script : List Char) (s : State) : State :=
  run n tested (Command.ofScript line script) s
termination_by (n, 1)

/-- Runs a script within the script for its output. -/
def runInside (n : Nat) (line : Nat) (script : List Char) (s : State) : List Char × State :=
  let r := s.apartWith 1 (.collector ByteArray.empty) fun s => runText n false line script s
  (trimLines (r.collected s.channels.size), r)
termination_by (n, 2)

/-- Deals with the signals that the script has caught. -/
def runTraps (n : Nat) (s : State) : State :=
  s.received.foldl (fun s signal =>
    match s.traps.lookup signal with
    | none => s
    | some action =>
        let r := runText n false 1 action.toList s
        if r.departure.isSome then r else { r with status := s.status }) { s with received := [] }
termination_by (n, 2)

/-- Runs a script to its end, where it may have something left to do. -/
def runWhole (n : Nat) (c : Command) (s : State) : State :=
  let r := run n false c s
  match r.departure, r.traps.lookup 0 with
  | some (.script (.signal _)), _ => r
  | _, none => r.stop (.code r.code)
  | _, some action =>
      let traps := r.traps.filter (·.1 ≠ 0)
      let e := runText n false 1 action.toList { r with status := r.code, departure := none, traps }
      if e.departure.isSome then e else e.stop (.code r.code)
termination_by (n, 2)

/-- Runs a script as a program of its own. A signal that ends it does not end the script that has
started it. -/
def runTask (n : Nat) (task : Task) (s : State) : State :=
  let r := s.apart fun s => runWhole n (Command.ofScript 1 task.script) (s.ofTask task)
  match r.departure with
  | some (.script (.signal k)) =>
      let r := { r with departure := none, status := (128 + k).toUInt8 }
      match Signal.report? k with
      | some text => r.emit 2 (encode (text ++ "\n"))
      | none => r
  | _ => r
termination_by (n, 3)

def runProgram (n : Nat) (name : String) (args : List String) (s : State) : State :=
  let refusal (e : FileError) : State :=
    if e = .notFound then { s.complain (name ++ ": not found") with status := 127 }
    else { s.complain (name ++ ": " ++ e.description) with status := 126 }
  match Target.find s.tree name args with
  | .ok (.tool called tool args) => s.useTool called tool args
  | .ok (.refusal status text) => { s with status }.emit 2 (encode text)
  | .ok (.shell called args) =>
      match Task.ofArguments called s.tree args with
      | .ok task => runTask n task s
      | .error text => { s with status := 2 }.emit 2 (encode text)
  | .error .badFormat => runTask n ⟨name, (scriptAt s.tree name).getD [], args, []⟩ s
  | .error e => refusal e
termination_by (n, 4)

/-- Runs a command of the shell, or a program. -/
def perform (n : Nat) (tested : Bool) (name : String) (args : List String) (s : State) : State :=
  match name, args with
  | "exec", [] => { s with status := 0 }
  | "exec", program :: args =>
      let r := runProgram n program args { s with speaker := "exec: " }
      r.stop (.code r.status)
  | "eval", args =>
      let script := (" ".intercalate args).toList
      { runText n tested 1 script { s with status := 0, speaker := "eval: " } with
        speaker := s.speaker }
  | ".", file :: _ =>
      match scriptAt s.tree file with
      | none => { s with speaker := "" }.refuse (".: cannot open " ++ file ++ ": No such file")
      | some script =>
          let r := runText n tested 1 script { s with status := 0, speaker := file ++ ": " }
          { r with
            speaker := s.speaker
            departure := if r.departure = some .function then none else r.departure }
  | name, args =>
      match Builtin.all.lookup name, Tool.ofShell.lookup name with
      | some command, _ => { command args { s with speaker := "" } with speaker := s.speaker }
      | none, some tool => s.useTool (s.shellName name) tool args
      | none, none => runProgram n name args s
termination_by (n, 5)

/-- Runs a function, or what else has the name. -/
def invoke (n : Nat) (tested : Bool) (args : List String) (s : State) : State :=
  match args with
  | [] => s
  | "command" :: "-v" :: names => names.foldl State.describe s
  | ["command"] => { s with status := 0 }
  | "command" :: name :: args => perform n tested name args s
  | name :: args =>
      match s.functions.lookup name with
      | none => perform n tested name args s
      | some body =>
          let r := run n tested body { s with arguments := args, hidden := some [], loops := 0 }
          let r := (r.hidden.getD []).foldl State.restore r
          { r with
            arguments := s.arguments
            hidden := s.hidden
            loops := s.loops
            departure := if r.departure = some .function then none else r.departure }
termination_by (n, 6)

/-- Runs a call: values are put in, streams redirected and variables set for the time of the call.
A call without words leaves the variables set, and one that only redirects the script's own streams
leaves them so. -/
def runCall (n : Nat) (tested : Bool) (c : Call) (s : State) : State :=
  let (args, s) := expandWords (runInside n) c.words s
  if s.departure.isSome then s
  else
    let isSpecial := (args.head?.map Command.special.contains).getD false
    match redirect (runInside n) c.redirects s with
    | (.error text, r) =>
        let r := (r.fail text).restoreStreams s c.redirects
        if isSpecial then r.stop (.code 2) else r
    | (.ok (), r) =>
        let earlier := c.assignments.map fun a => (a.1, r.bindings.lookup a.1)
        let r := assignAll (runInside n) c.assignments r
        let set := c.assignments.map fun a => a.1 ++ "=" ++ (r.bindings.lookup a.1).getD ""
        if r.departure.isSome then r
        else if args = [] then
          { r.trace s set with status := if c.hasOutput then r.status else 0 }.restoreStreams s
            c.redirects
        else
          let exported := r.exported
          let r := invoke n tested args
            { r.trace s (set ++ args) with exported := earlier.map Prod.fst ++ exported }
          let r :=
            if isSpecial ∨ earlier = [] then r
            else { earlier.foldl State.restore r with exported }
          if args = ["exec"] then r else r.restoreStreams s c.redirects
termination_by (n, 7)

end

/-- A script may take this many steps. -/
def patience : Nat := 20000

def runScript (task : Task) (t : FileTree) : ProgramResult × FileTree :=
  let s := runWhole patience (Command.ofScript 1 task.script)
    { tree := t, name := task.name, arguments := task.arguments, settings := task.settings }
  let status := match s.departure with
    | some (.script status) => status
    | _ => .code s.status
  (⟨status, s.collected 1, s.collected 2⟩, { s.tree with workingDirectory := t.workingDirectory })

end GameExport.Shell
