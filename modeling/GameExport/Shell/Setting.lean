/-! # Settings of a shell

A setting is turned on or off by its letter or its name, when a shell is started or by a script. A
shell that is started can also be told to run a text.
-/

namespace GameExport.Shell

/-- The letters of the settings that are on. -/
abbrev Settings := List Char

namespace Settings

def names : List (String × Char) :=
  [("errexit", 'e'), ("noglob", 'f'), ("ignoreeof", 'I'), ("interactive", 'i'), ("monitor", 'm'),
   ("noexec", 'n'), ("stdin", 's'), ("xtrace", 'x'), ("verbose", 'v'), ("vi", 'V'), ("emacs", 'E'),
   ("noclobber", 'C'), ("allexport", 'a'), ("notify", 'b'), ("nounset", 'u')]

/-- Names of settings that have no letters and change nothing. -/
def silentNames : List String := ["privileged", "nolog", "debug"]

/-- Settings with one of them turned on or off. -/
def turn (settings : Settings) (on : Bool) (letter : Char) : Settings :=
  if on then letter :: settings.filter (· ≠ letter) else settings.filter (· ≠ letter)

/-- The letters of the settings that are on, from the last one in the list to the first. -/
def letters (settings : Settings) : String :=
  String.ofList ((names.map Prod.snd).reverse.filter settings.contains)

/-- What the options of a shell say: its settings, whether it is to run a text, and whether a mark
has ended the options. -/
structure Choice where
  settings : Settings
  takesText : Bool := false
  ended : Option String := none

/-- Reads letters of one argument. Some take their value from the arguments that follow. -/
def readLetters (starting on : Bool) :
    List Char → List String → Choice → Except String (Choice × List String)
  | [], args, r => .ok (r, args)
  | c :: cs, args, r =>
      if c = 'c' ∧ starting then readLetters starting on cs args { r with takesText := true }
      else if c = 'o' then
        match args with
        | [] => readLetters starting on cs [] r
        | name :: args =>
            match names.lookup name, silentNames.contains name with
            | some letter, _ =>
                readLetters starting on cs args
                  { r with settings := r.settings.turn on letter }
            | none, true => readLetters starting on cs args r
            | none, false => .error ("Illegal option -o " ++ name)
      else if (names.map Prod.snd).contains c then
        readLetters starting on cs args { r with settings := r.settings.turn on c }
      else .error ("Illegal option -" ++ String.singleton c)

def readSome (starting : Bool) : Nat → List String → Choice → Except String (Choice × List String)
  | 0, args, r => .ok (r, args)
  | _ + 1, [], r => .ok (r, [])
  | n + 1, arg :: args, r =>
      if arg = "-" ∨ arg = "--" then .ok ({ r with ended := some arg }, args)
      else match arg.toList with
        | '-' :: cs => do
            let (r, args) ← readLetters starting true cs args r
            readSome starting n args r
        | '+' :: cs => do
            let (r, args) ← readLetters starting false cs args r
            readSome starting n args r
        | _ => .ok (r, arg :: args)

/-- Reads options, and gives the arguments that follow them. -/
def read (starting : Bool) (settings : Settings) (args : List String) :
    Except String (Choice × List String) :=
  readSome starting args.length args { settings }

end Settings

end GameExport.Shell
