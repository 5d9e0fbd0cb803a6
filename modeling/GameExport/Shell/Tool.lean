import GameExport.Program
import GameExport.Shell.Options

/-! # Tools

The tools that a script can call work on files and on three streams. Each ends with a status, zero
if all went well, and says on the stream for complaints what did not.
-/

namespace GameExport.Shell

structure ToolResult where
  tree : FileTree
  status : UInt8 := 0
  output : List UInt8 := []
  complaints : List UInt8 := []

/-- A tool, given its name, its arguments and its input. -/
abbrev Tool := String → List String → List UInt8 → FileTree → ToolResult

namespace Tool

open Text.Utf8 (encode)

def quoted (name : String) : String := "'" ++ name ++ "'"

/-- A name between typographic quotes. -/
def quotedFinely (name : String) : String := "‘" ++ name ++ "’"

/-- A tool that says what is wrong, under the name by which it was called. -/
def complaint (name text : String) (status : UInt8) (tree : FileTree) : ToolResult :=
  { tree, status, complaints := encode (name ++ ": " ++ text ++ "\n") }

/-- A complaint about the way in which a tool was called. -/
def misuse (name text : String) (status : UInt8) (tree : FileTree) : ToolResult :=
  complaint name (text ++ "\nTry '" ++ name ++ " --help' for more information.") status tree

/-- A tool with options. It refuses to work with options that it does not know. -/
def withOptions (table : OptionTable) (refusal : UInt8)
    (f : String → Arguments → List UInt8 → FileTree → ToolResult) : Tool :=
  fun name args input tree =>
    match table.read args with
    | .ok a => f name a input tree
    | .error text => misuse name text refusal tree

/-- Runs an operation for each path. Those that fail are complained about. -/
def forEach (operation : Path → Disk.Operation Unit) (complain : String → FileError → String)
    (paths : List String) (t : FileTree) : ToolResult :=
  paths.foldl (fun r path =>
    match (operation ⟨path⟩).outcome r.tree with
    | (.ok (), tree) => { r with tree }
    | (.error e, tree) =>
        { r with
          tree
          status := 1
          complaints := r.complaints ++ encode (complain path e ++ "\n") }) { tree := t }

/-! ## Output -/

/-- An octal number of up to so many digits. -/
def octal : Nat → List Char → Nat × List Char
  | n + 1, c :: s =>
      if '0' ≤ c ∧ c ≤ '7' then
        let more := s.takeWhile (fun d => '0' ≤ d && d ≤ '7')
        let digits := c :: more.take n
        (Nat.ofDigitChars 8 digits 0, s.drop (more.take n).length)
      else (0, c :: s)
  | _, s => (0, s)

/-- Characters that stand for others behind a backslash. -/
def escapes : List (Char × UInt8) :=
  [('a', 7), ('b', 8), ('e', 27), ('f', 12), ('n', 10), ('r', 13), ('t', 9), ('v', 11), ('\\', 92)]

def encodeChar (c : Char) : List UInt8 := encode (String.singleton c)

/-- A text with its escapes replaced, and whether one of them ends all output. Octal numbers may
have to start with a zero; only then is there an escape that ends output. -/
def unescape (zeroFirst : Bool) : Nat → List Char → List UInt8 × Bool
  | 0, _ => ([], false)
  | _ + 1, [] => ([], false)
  | n + 1, '\\' :: c :: s =>
      if c = 'c' ∧ zeroFirst then ([], true)
      else match escapes.lookup c with
        | some b =>
            let (rest, stop) := unescape zeroFirst n s
            (b :: rest, stop)
        | none =>
            if c = '0' ∨ (!zeroFirst ∧ '0' ≤ c ∧ c ≤ '7') then
              let (value, after) := octal 3 (if c = '0' && zeroFirst then s else c :: s)
              let (rest, stop) := unescape zeroFirst n after
              (value.toUInt8 :: rest, stop)
            else
              let (rest, stop) := unescape zeroFirst n (c :: s)
              (92 :: rest, stop)
  | n + 1, c :: s =>
      let (rest, stop) := unescape zeroFirst n s
      (encodeChar c ++ rest, stop)

def echo : Tool := fun _ args _ tree =>
  let (newline, args) := match args with
    | "-n" :: rest => (false, rest)
    | _ => (true, args)
  let text := (" ".intercalate args).toList
  let (bytes, stop) := unescape true (text.length + 1) text
  { tree, output := if newline && !stop then bytes ++ [10] else bytes }

/-! ## Names of paths -/

/-- The last part of a path, perhaps without an ending. -/
def basename : Tool := withOptions {} 1 fun name a _ tree =>
  match a.operands with
  | [] => misuse name "missing operand" 1 tree
  | path :: rest =>
      let trimmed := (path.toList.reverse.dropWhile (· = '/')).reverse
      let last := (trimmed.reverse.takeWhile (· ≠ '/')).reverse
      let last := if last = [] ∧ path ≠ "" then ['/'] else last
      let ending := (rest.headD "").toList
      let last := match List.isSuffixOf? ending last with
        | some stem => if stem = [] then last else stem
        | none => last
      { tree, output := encode (String.ofList last) ++ [10] }

def dirname : Tool := withOptions {} 1 fun name a _ tree =>
  match a.operands with
  | [] => misuse name "missing operand" 1 tree
  | path :: _ =>
      let trimmed := path.toList.reverse.dropWhile (· = '/')
      let above := ((trimmed.dropWhile (· ≠ '/')).dropWhile (· = '/')).reverse
      let result :=
        if above ≠ [] then above else if path.toList.head? = some '/' then ['/'] else ['.']
      { tree, output := encode (String.ofList result) ++ [10] }

def pwd : Tool := withOptions (OptionTable.flags "LP" []) 1 fun _ _ _ tree =>
  { tree, output := encode ("/" ++ "/".intercalate tree.workingDirectory.reverse) ++ [10] }

/-! ## Nothing -/

def succeed : Tool := fun _ _ _ tree => { tree }

def failing : Tool := fun _ _ _ tree => { tree, status := 1 }

/-- Time is not kept: waiting takes none. -/
def sleep : Tool := withOptions {} 1 fun name a _ tree =>
  if a.operands = [] then misuse name "missing operand" 1 tree else { tree }

end Tool

end GameExport.Shell
