import GameExport.Shell.Tool

/-! # Questions

A question asks about texts, numbers and files. Questions can be denied, put in brackets and joined
by `-a` and `-o`, of which the first binds tighter. An operator that stands where an operand is
expected is one.
-/

namespace GameExport.Shell.Question

/-- The answer to the start of a question, and the rest of it. -/
abbrev Answer := Except String (Bool × List String)

/-- A path leads to a program, or to a directory that can be entered. -/
def canRun (t : FileTree) (path : String) : Bool :=
  match t.find? path with
  | some (.file _ executable) => executable
  | some .directory => true
  | none => false

/-- A path leads to something that is not empty. -/
def hasContent (t : FileTree) (path : String) : Bool :=
  match t.find? path with
  | some (.file content _) => content.size ≠ 0
  | some .directory => true
  | none => false

/-- Questions with one operand. Kinds of files that a tree does not have are never found. -/
def unary? (t : FileTree) (operator : String) : Option (String → Bool) :=
  if operator = "-n" then some fun s => s ≠ ""
  else if operator = "-z" then some fun s => s = ""
  else if operator = "-f" then some fun path => t.isFile path
  else if operator = "-d" then some fun path => t.isDirectory path
  else if operator = "-x" then some (canRun t)
  else if operator = "-s" then some (hasContent t)
  else if ["-e", "-r", "-w", "-O", "-G"].contains operator then some fun path => t.contains path
  else if ["-L", "-h", "-b", "-c", "-p", "-S", "-u", "-g", "-k", "-t"].contains operator then
    some fun _ => false
  else none

def integer? (s : String) : Option Int :=
  match s.toList with
  | '+' :: digits => if digits.all Char.isDigit then (String.ofList digits).toInt? else none
  | _ => s.toInt?

def compare (f : Int → Int → Bool) (a b : String) : Except String Bool :=
  match integer? a, integer? b with
  | some x, some y => .ok (f x y)
  | none, _ => .error ("Illegal number: " ++ a)
  | _, none => .error ("Illegal number: " ++ b)

def binary : List (String × (String → String → Except String Bool)) :=
  [("=", fun a b => .ok (a = b)), ("!=", fun a b => .ok (a ≠ b)), ("<", fun a b => .ok (a < b)),
   (">", fun a b => .ok (b < a)), ("-eq", compare (· == ·)), ("-ne", compare (· != ·)),
   ("-lt", compare (· < ·)), ("-le", compare (· ≤ ·)), ("-gt", compare (· > ·)),
   ("-ge", compare (· ≥ ·))]

def isBinary (operator : String) : Bool := (binary.lookup operator).isSome

/-- An operator with one operand is an operand itself if there is nothing behind it or if it is
followed by an operator with two operands. -/
def isOperand : List String → Bool
  | _ :: operator :: right :: _ => isBinary operator && right ≠ ")"
  | [_, _] => false
  | _ => true

mutual

/-- Reads questions of which one has to be true. -/
def any (t : FileTree) : Nat → List String → Answer
  | 0, _ => .error "closing paren expected"
  | n + 1, args => do
      match ← all t n args with
      | (a, "-o" :: rest) =>
          let (b, rest) ← any t n rest
          pure (a || b, rest)
      | r => pure r

/-- Reads questions that have to be true together. -/
def all (t : FileTree) : Nat → List String → Answer
  | 0, _ => .error "closing paren expected"
  | n + 1, args => do
      match ← denied t n args with
      | (a, "-a" :: rest) =>
          let (b, rest) ← all t n rest
          pure (a && b, rest)
      | r => pure r

def denied (t : FileTree) : Nat → List String → Answer
  | n + 1, "!" :: rest => do
      let (a, rest) ← denied t n rest
      pure (!a, rest)
  | n + 1, args => one t n args
  | 0, _ => .error "closing paren expected"

def one (t : FileTree) : Nat → List String → Answer
  | n + 1, "(" :: next :: rest =>
      if next = ")" then pure (false, rest)
      else do
        match ← any t n (next :: rest) with
        | (a, ")" :: rest) => pure (a, rest)
        | _ => throw "closing paren expected"
  | _, [] => pure (false, [])
  | _, first :: rest =>
      match unary? t first, isOperand (first :: rest), rest with
      | some f, false, operand :: rest => pure (f operand, rest)
      | _, _, operator :: rest' =>
          match binary.lookup operator, rest' with
          | some f, right :: rest' => do pure (← f first right, rest')
          | some _, [] => throw (operator ++ ": argument expected")
          | none, _ => pure (first ≠ "", rest)
      | _, _, [] => pure (first ≠ "", rest)

end

/-- The answer to a question, or what is wrong with it. Of an argument too many, it is said with
the one before it. -/
def answer (tooMany : String → String → String) (t : FileTree) (args : List String) :
    Except String Bool :=
  match args with
  | [left, operator, right] =>
      match binary.lookup operator with
      | some f => f left right
      | none => read
  | _ => read
where
  read : Except String Bool := do
    match ← any t (4 * args.length + 4) args with
    | (a, []) => pure a
    | (_, next :: rest) => throw (tooMany (args.getD (args.length - rest.length - 2) "") next)

end GameExport.Shell.Question

namespace GameExport.Shell.Tool

/-- Ends with zero if the answer to a question is yes. -/
def ask (tooMany : String → String → String) : Tool := fun name args _ tree =>
  match Question.answer tooMany tree args with
  | .ok true => { tree }
  | .ok false => { tree, status := 1 }
  | .error text => complaint name text 2 tree

/-- Answers a question with a bracket at its end, as the name of the tool is one in front of it. -/
def bracketed (closing : String) (question : Tool) : Tool := fun name args input tree =>
  if args.getLast? = some "]" then question name args.dropLast input tree
  else complaint name ("missing " ++ closing) 2 tree

def test : Tool := ask fun last _ => last ++ ": unexpected operator"

def testProgram : Tool := ask fun _ next => "extra argument " ++ quotedFinely next

end GameExport.Shell.Tool
