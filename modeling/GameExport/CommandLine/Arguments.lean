import GameExport.Path

/-! # Arguments of the command line

Arguments name a command and its options. Options that every command has may stand before the
command too; where one stands on both sides, the one behind the command counts. A command line
that is not well formed is refused as a whole.
-/

namespace GameExport.CommandLine

inductive Command where
  | init (directory : Option Path)
  | stage (inputs : List Path)
  | exportScripts (manifest output : Path) (withMetadata : Bool)
  deriving DecidableEq

/-- A command with the options that every command has. -/
structure Invocation where
  config : Option Path
  workspace : Option Path
  verbose : Bool
  command : Command
  deriving DecidableEq

inductive Request where
  | run (i : Invocation)
  | version
  | help
  | misuse
  deriving DecidableEq

/-! ## Options -/

/-- An option: its long name, its letter if it has one, and whether it takes a value. -/
structure OptionSpec where
  long : String
  letter : Option Char
  takesValue : Bool
  deriving DecidableEq

def sharedOptions : List OptionSpec :=
  [⟨"config", some 'c', true⟩, ⟨"workspace", some 'w', true⟩, ⟨"verbose", some 'v', false⟩]

def helpOption : OptionSpec := ⟨"help", some 'h', false⟩

def versionOption : OptionSpec := ⟨"version", some 'V', false⟩

def rootOptions : List OptionSpec := sharedOptions ++ [helpOption, versionOption]

/-- The commands with their own options, and whether they take other arguments. -/
def commands : List (String × List OptionSpec × Bool) :=
  [("init", [⟨"path", some 'p', true⟩], false),
   ("stage", [], true),
   ("export", [⟨"manifest", some 'm', true⟩, ⟨"output", some 'o', true⟩,
     ⟨"no-meta", none, false⟩], false)]

/-- Options as they were given, a flag with an empty value. -/
abbrev Given := List (String × String)

/-- The end of reading: an option that answers at once, or a fault. -/
inductive Halt where
  | version
  | help
  | misuse
  deriving DecidableEq

/-- Takes down an option. One may be given once, and a value may not be empty. -/
def give (o : OptionSpec) (value : String) (given : Given) : Except Halt Given :=
  if o.long = "help" then .error .help
  else if o.long = "version" then .error .version
  else if (given.lookup o.long).isSome then .error .misuse
  else if o.takesValue ∧ value = "" then .error .misuse
  else .ok ((o.long, value) :: given)

/-- An argument that may be the value of an option before it. -/
def isValue (arg : String) : Bool := arg = "-" || !arg.startsWith "-"

/-- Reads an option by its long name, given the arguments behind it. -/
def readLong (options : List OptionSpec) (text : List Char) (rest : List String) (given : Given) :
    Except Halt (Given × List String) :=
  let name := String.ofList (text.takeWhile (· ≠ '='))
  match options.find? (·.long = name), text.dropWhile (· ≠ '=') with
  | none, _ => .error .misuse
  | some o, _ :: value =>
      if o.takesValue then (give o (String.ofList value) given).map fun g => (g, rest)
      else .error .misuse
  | some o, [] =>
      if o.takesValue then
        match rest with
        | value :: rest =>
            if isValue value then (give o value given).map fun g => (g, rest) else .error .misuse
        | [] => .error .misuse
      else (give o "" given).map fun g => (g, rest)

/-- Reads options by their letters. The first one that takes a value takes the rest of the letters,
or the next argument if there are none. -/
def readLetters (options : List OptionSpec) :
    List Char → List String → Given → Except Halt (Given × List String)
  | [], rest, given => .ok (given, rest)
  | c :: cs, rest, given =>
      match options.find? (·.letter = some c) with
      | none => .error .misuse
      | some o =>
          if o.takesValue then
            match cs, rest with
            | [], value :: rest =>
                if isValue value then (give o value given).map fun g => (g, rest)
                else .error .misuse
            | [], [] => .error .misuse
            | '=' :: value, rest => (give o (String.ofList value) given).map fun g => (g, rest)
            | value, rest => (give o (String.ofList value) given).map fun g => (g, rest)
          else do
            let given ← give o "" given
            readLetters options cs rest given

/-! ## Commands -/

/-- Reads the arguments of a command. Other arguments than options are given back in order. -/
def readOptions (options : List OptionSpec) (takesOthers : Bool) :
    Nat → List String → Given → List String → Except Halt (Given × List String)
  | 0, _, _, _ => .error .misuse
  | _ + 1, [], given, others => .ok (given, others)
  | n + 1, arg :: rest, given, others =>
      if arg = "--" then
        if (takesOthers || rest.isEmpty) && rest.all (· ≠ "") then .ok (given, others ++ rest)
        else .error .misuse
      else match arg.toList with
        | '-' :: '-' :: text => do
            let (given, rest) ← readLong options text rest given
            readOptions options takesOthers n rest given others
        | '-' :: c :: cs => do
            let (given, rest) ← readLetters options (c :: cs) rest given
            readOptions options takesOthers n rest given others
        | _ =>
            if takesOthers && arg ≠ "" then
              readOptions options takesOthers n rest given (others ++ [arg])
            else .error .misuse

/-- The command that options and other arguments make up. -/
def commandOf (name : String) (given : Given) (others : List String) : Option Command :=
  let path (option : String) : Option Path := (given.lookup option).map Path.mk
  if name = "init" then some (.init (path "path"))
  else if name = "stage" then if others = [] then none else some (.stage (others.map Path.mk))
  else do
    let manifest ← path "manifest"
    let output ← path "output"
    pure (.exportScripts manifest output (given.lookup "no-meta").isNone)

/-- Reads what help is asked for: on the whole program or on one command. -/
def readHelp : List String → Halt
  | [] => .help
  | [name] => if name = "help" ∨ (commands.lookup name).isSome then .help else .misuse
  | _ => .misuse

/-- Reads a command behind the options before it. -/
def readCommand (name : String) (rest : List String) (before : Given) : Except Halt Invocation :=
  if name = "help" then .error (readHelp rest)
  else match commands.lookup name with
    | none => .error .misuse
    | some (own, takesOthers) => do
        let (given, others) ← readOptions (own ++ sharedOptions ++ [helpOption]) takesOthers
          (rest.length + 1) rest [] []
        let path (option : String) : Option Path :=
          ((given.lookup option).or (before.lookup option)).map Path.mk
        match commandOf name given others with
        | some command =>
            pure ⟨path "config", path "workspace", (path "verbose").isSome, command⟩
        | none => throw .misuse

def readLine : Nat → List String → Given → Except Halt Invocation
  | 0, _, _ => .error .misuse
  | _ + 1, [], _ => .error .misuse
  | n + 1, arg :: rest, given =>
      match arg.toList with
      | ['-', '-'] => .error .misuse
      | '-' :: '-' :: text => do
          let (given, rest) ← readLong rootOptions text rest given
          readLine n rest given
      | '-' :: c :: cs => do
          let (given, rest) ← readLetters rootOptions (c :: cs) rest given
          readLine n rest given
      | _ => readCommand arg rest given

def Request.ofArguments (args : List String) : Request :=
  match readLine (args.length + 1) args [] with
  | .ok i => .run i
  | .error .version => .version
  | .error .help => .help
  | .error .misuse => .misuse

end GameExport.CommandLine
