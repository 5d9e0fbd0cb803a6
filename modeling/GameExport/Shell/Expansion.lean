import GameExport.Shell.Arithmetic
import GameExport.Shell.Glob
import GameExport.Shell.State

/-! # Putting in values

Before a command is run, values of parameters, outputs of scripts and results of arithmetic are put
into its words. What comes of it is split into fields at blanks that no quotes protect, and fields
that are patterns stand for paths.
-/

namespace GameExport.Shell

open Glob (Field)

/-- A piece of a word in which values have been put in. Pieces that are not quoted may be split at
blanks; a break always separates. -/
inductive Piece where
  | chars (s : List Char) (quoted : Bool) (isValue : Bool)
  | apart
  deriving DecidableEq

/-- The output of a script within a script that starts on the given line, and the state after it. -/
abbrev Substitute := Nat → List Char → State → List Char × State

def isSeparator (c : Char) : Bool := c = ' ' || c = '\t' || c = '\n'

def plainText (pieces : List Piece) : List Char :=
  pieces.flatMap fun
    | .chars s _ _ => s
    | .apart => [' ']

def patternOf (pieces : List Piece) : Pattern :=
  Pattern.ofChars 0 (pieces.flatMap fun
    | .chars s quoted _ => s.map fun c => (c, quoted)
    | .apart => [(' ', false)])

/-- Fragments of words within words are expanded to this depth. -/
def maxDepth : Nat := 8

def argumentPieces (quoted : Bool) (args : List String) : List Piece :=
  (args.map fun a => Piece.chars a.toList quoted true).intersperse .apart

/-- The reason for giving up when a value is missing. -/
def missingValue (name : String) (emptyToo : Bool) (reason : List Char) : String :=
  name ++ ": " ++
    if reason ≠ [] then String.ofList reason
    else if emptyToo then "parameter not set or null" else "parameter not set"

/-- Pieces that take the place of a value. -/
def asValue (r : List Piece × State) : List Piece × State :=
  (r.1.map fun
    | .chars s quoted _ => .chars s quoted true
    | .apart => .apart,
   r.2)

mutual

def expand (substitute : Substitute) : Nat → Word → State → List Piece × State
  | _, [], s => ([], s)
  | n, f :: w, s =>
      let (first, s) := expandFragment substitute n f s
      let (rest, s) := expand substitute n w s
      (first ++ rest, s)
termination_by n w => (n, w.length + 1)

def expandFragment (substitute : Substitute) : Nat → Fragment → State → List Piece × State
  | _, .text t quoted, s => ([.chars t quoted false], s)
  | _, .output script line quoted, s =>
      let (text, s) := substitute (line.getD s.line) script s
      ([.chars text quoted true], s)
  | 0, .arithmetic _ _, s => ([], s.stop (.code 2))
  | n + 1, .arithmetic expression quoted, s =>
      let (pieces, s) := expand substitute n (wordOf true expression) s
      match Arithmetic.evaluate (fun name => (s.value? name).getD "") (plainText pieces) with
      | .ok (v, set) =>
          ([.chars (toString v).toList quoted true],
            set.foldr (fun (name, v) s => s.assign name (toString v)) s)
      | .error text => ([], s.refuse text)
  | n, .parameter name edit quoted, s =>
      let value := s.value? name
      let put (t : List Char) : List Piece := [.chars t quoted true]
      match edit, n with
      | .none, _ =>
          if name = "@" ∨ (name = "*" ∧ !quoted) then (argumentPieces quoted s.arguments, s)
          else if value = none ∧ s.needsValues then ([], s.refuse (missingValue name false []))
          else (put (value.getD "").toList, s)
      | .unknown, _ => ([], s.refuse "Bad substitution")
      | .length, _ => (put (toString (value.getD "").length).toList, s)
      | .replace kind emptyToo word, n + 1 =>
          match kind, value.filter fun v => !(emptyToo && v = "") with
          | .ifPresent, none => (put [], s)
          | .ifPresent, some _ => asValue (expand substitute n (wordOf quoted word) s)
          | _, some v => (put v.toList, s)
          | .ifMissing, none => asValue (expand substitute n (wordOf quoted word) s)
          | .ifMissingFromNowOn, none =>
              let (pieces, s) := expand substitute n (wordOf quoted word) s
              let text := plainText pieces
              (put text, s.assign name (String.ofList text))
          | .complaint, none =>
              let (pieces, s) := expand substitute n (wordOf quoted word) s
              ([], s.refuse (missingValue name emptyToo (plainText pieces)))
      | .cutStart longest word, n + 1 =>
          let (pieces, s) := expand substitute n (wordOf false word) s
          (put (Pattern.cutStart longest (patternOf pieces) (value.getD "").toList), s)
      | .cutEnd longest word, n + 1 =>
          let (pieces, s) := expand substitute n (wordOf false word) s
          (put (Pattern.cutEnd longest (patternOf pieces) (value.getD "").toList), s)
      | _, 0 => (put [], s)
termination_by n => (n, 0)

end

/-- Splits a value at its blanks, behind what the field holds so far. -/
def splitValue : Option Field → List Char → List Field × Option Field
  | field, [] => ([], field)
  | field, c :: s =>
      if isSeparator c then
        let (fields, last) := splitValue none s
        (field.toList ++ fields, last)
      else splitValue (some (field.getD [] ++ [(c, false)])) s

def fieldsOf : Option Field → List Piece → List Field
  | field, [] => field.toList
  | field, .apart :: ps => field.toList ++ fieldsOf none ps
  | field, .chars s quoted isValue :: ps =>
      if !quoted && isValue then
        let (fields, last) := splitValue field s
        fields ++ fieldsOf last ps
      else fieldsOf (some (field.getD [] ++ s.map fun c => (c, quoted))) ps

def expandWords (substitute : Substitute) : List Word → State → List String × State
  | [], s => ([], s)
  | w :: ws, s =>
      let (pieces, s) := expand substitute maxDepth w s
      let textsOf := if s.takesPatterns then Glob.paths s.tree else fun f => [Glob.textOf f]
      let fields := (fieldsOf none pieces).flatMap textsOf
      let (rest, s) := expandWords substitute ws s
      (fields ++ rest, s)

/-- The text of one word, which is not split. -/
def expandText (substitute : Substitute) (w : Word) (s : State) : String × State :=
  let (pieces, s) := expand substitute maxDepth w s
  (String.ofList (plainText pieces), s)

/-- One of some patterns stands for a text. Those behind the first one that does are not looked at. -/
def matchesAny (substitute : Substitute) (text : List Char) : List Word → State → Bool × State
  | [], s => (false, s)
  | w :: ws, s =>
      let (pieces, s) := expand substitute maxDepth w s
      if Pattern.isMatch (patternOf pieces) text then (true, s)
      else matchesAny substitute text ws s

def assignAll (substitute : Substitute) : List (String × Word) → State → State
  | [], s => s
  | (name, w) :: rest, s =>
      let (value, s) := expandText substitute w s
      assignAll substitute rest (s.assign name value)

end GameExport.Shell
