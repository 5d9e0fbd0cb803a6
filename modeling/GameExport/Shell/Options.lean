/-! # Options of a tool

Options are letters behind a dash, several of them in one argument if wanted, or names behind two
dashes. Some letters have a value, which is the rest of the argument or the next one. Options may
stand behind operands; two dashes alone end them.
-/

namespace GameExport.Shell

structure Arguments where
  options : List (Char × String) := []
  operands : List String := []

namespace Arguments

def has (a : Arguments) (letter : Char) : Bool := a.options.any (·.1 = letter)

/-- The value that an option was given last. -/
def value? (a : Arguments) (letter : Char) : Option String :=
  (a.options.reverse.find? (·.1 = letter)).map Prod.snd

end Arguments

/-- The options that a tool knows: letters with whether they have a value, and names that stand for
letters. -/
structure OptionTable where
  letters : List (Char × Bool) := []
  names : List (String × Char) := []

namespace OptionTable

def flags (letters : String) (names : List (String × Char)) : OptionTable :=
  ⟨letters.toList.map fun c => (c, false), names⟩

/-- Reads the letters of one argument. The last one may want the next argument as its value. -/
def readLetters (table : OptionTable) :
    List Char → Except String (List (Char × String) × Option Char)
  | [] => .ok ([], none)
  | c :: s =>
      match table.letters.lookup c with
      | none => .error ("invalid option -- '" ++ String.singleton c ++ "'")
      | some false => (table.readLetters s).map fun r => ((c, "") :: r.1, r.2)
      | some true =>
          if s = [] then .ok ([], some c) else .ok ([(c, String.ofList s)], none)

/-- Reads arguments; the first option that is not known is the fault. -/
def read (table : OptionTable) (args : List String) : Except String Arguments :=
  match args with
  | [] => .ok {}
  | arg :: rest => do
      let add (options : List (Char × String)) (a : Arguments) : Arguments :=
        { a with options := options ++ a.options }
      match arg.toList with
      | ['-', '-'] => pure { operands := rest }
      | '-' :: '-' :: _ =>
          match table.names.lookup arg with
          | some c => (table.read rest).map (add [(c, "")])
          | none => throw ("unrecognized option '" ++ arg ++ "'")
      | '-' :: c :: s =>
          let (options, waiting) ← table.readLetters (c :: s)
          match waiting with
          | none => (table.read rest).map (add options)
          | some c =>
              match rest with
              | value :: others => (table.read others).map (add (options ++ [(c, value)]))
              | [] => throw ("option requires an argument -- '" ++ String.singleton c ++ "'")
      | _ =>
          let a ← table.read rest
          pure { a with operands := arg :: a.operands }
termination_by args.length
decreasing_by all_goals (simp only [List.length_cons]; omega)

end OptionTable

end GameExport.Shell
