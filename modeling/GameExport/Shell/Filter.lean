import GameExport.Shell.Tool

/-! # Filters

Tools that pass on a part of what they read, or change it on the way, and one that counts.
-/

namespace GameExport.Shell.Tool

open Text.Utf8 (encode)

/-- What the first operand of a filter names: a file, or the input if there is none. -/
def source (tree : FileTree) (input : List UInt8) : List String → Except FileError (List UInt8)
  | [] => .ok input
  | "-" :: _ => .ok input
  | "/dev/null" :: _ => .ok []
  | path :: _ => (Disk.read tree path).map fun content => content.toList

/-! ## The start of a text -/

/-- How much of a text is wanted. -/
inductive Amount where
  | lines (n : Nat)
  | bytes (n : Nat)

/-- The lines at the start of a text. -/
def takeLines : Nat → List UInt8 → List UInt8
  | 0, _ => []
  | _ + 1, [] => []
  | n + 1, b :: s => b :: takeLines (if b = 10 then n else n + 1) s

def Amount.take : Amount → List UInt8 → List UInt8
  | .lines n, s => takeLines n s
  | .bytes n, s => s.take n

def Amount.ofOptions (a : Arguments) : Amount :=
  match a.value? 'c', a.value? 'n' with
  | some n, _ => .bytes (n.toNat?.getD 0)
  | none, some n => .lines (n.toNat?.getD 0)
  | none, none => .lines 10

/-- A number behind a dash is a number of lines. -/
def countFirst : List String → List String
  | arg :: rest =>
      match arg.toList with
      | '-' :: d :: digits =>
          if (d :: digits).all Char.isDigit then "-n" :: String.ofList (d :: digits) :: rest
          else arg :: rest
      | _ => arg :: rest
  | [] => []

/-- Passes on the start of a file or of its input. The device of zeros has as many as wanted. -/
def head : Tool := fun name args input tree =>
  withOptions ⟨[('n', true), ('c', true), ('q', false)], []⟩ 1 (fun name a input tree =>
    match Amount.ofOptions a, a.operands with
    | .bytes n, ["/dev/zero"] => { tree, output := List.replicate n 0 }
    | amount, operands =>
        match source tree input operands with
        | .ok bytes => { tree, output := amount.take bytes }
        | .error .isDirectory =>
            complaint name ("error reading '" ++ operands.headD "" ++ "': Is a directory") 1 tree
        | .error e =>
            complaint name ("cannot open '" ++ operands.headD "" ++ "' for reading: " ++
              e.description) 1 tree) name (countFirst args) input tree

/-! ## Changing characters -/

/-- The characters of a set: ranges, and characters behind a backslash. -/
def characters : Nat → List Char → List Char
  | n + 1, '\\' :: c :: s =>
      match octal 3 (c :: s), escapes.lookup c with
      | _, some b => Char.ofNat b.toNat :: characters n s
      | (value, rest), none =>
          if '0' ≤ c ∧ c ≤ '7' then Char.ofNat value :: characters n rest else c :: characters n s
  | n + 1, a :: '-' :: b :: s =>
      (List.range (b.toNat + 1 - a.toNat)).map (fun i => Char.ofNat (a.toNat + i)) ++ characters n s
  | n + 1, c :: s => c :: characters n s
  | _, _ => []

def charactersOf (s : String) : List Char := characters (s.length + 1) s.toList

/-- The character that stands for another one. The last one of the new set stands for all that have
none of their own. -/
def replacement (old new : List Char) (c : Char) : Char :=
  match old.idxOf? c with
  | some i => (new[i]?.or new.getLast?).getD c
  | none => c

/-- Replaces the characters of one set by those of another one, or leaves them out. -/
def tr : Tool := withOptions (OptionTable.flags "d" []) 1 fun name a input tree =>
  let text := Text.Utf8.decode input
  let result (s : List Char) : ToolResult := { tree, output := encode (String.ofList s) }
  match a.has 'd', a.operands.map charactersOf with
  | true, [set] => result (text.filter (!set.contains ·))
  | false, [old, new] => result (text.map (replacement old new))
  | _, _ => misuse name "missing operand" 1 tree

/-! ## Counting -/

/-- Writes the numbers from one, or from the first to the second, each on a line. -/
def seq : Tool := withOptions {} 1 fun name a _ tree =>
  let numbers (first last : Int) : ToolResult :=
    let all := (List.range (last + 1 - first).toNat).map fun (i : Nat) => first + i
    { tree, output := all.flatMap fun i => encode (toString i ++ "\n") }
  match a.operands.map (·.toInt?) with
  | [some last] => numbers 1 last
  | [some first, some last] => numbers first last
  | _ => misuse name "missing operand" 1 tree

/-- The number of words: rows of characters without blanks. -/
def wordCount (bytes : List UInt8) : Nat :=
  let isBlank (b : UInt8) := b = 32 || (9 ≤ b && b ≤ 13)
  (bytes.foldl (fun (n, inside) b => (if inside || isBlank b then n else n + 1, !isBlank b))
    (0, false)).1

/-- Counts the lines, words and bytes of a file or of its input. Several numbers stand in columns
that have room for the largest one. -/
def wc : Tool := withOptions (OptionTable.flags "lwc" []) 1 fun name a input tree =>
  match source tree input a.operands with
  | .ok bytes =>
      let counts := [('l', bytes.count 10), ('w', wordCount bytes), ('c', bytes.length)]
      let chosen := (if a.options = [] then counts else counts.filter (a.has ·.1)).map Prod.snd
      let width := match chosen with
        | [_] => 1
        | _ => if a.operands = [] then 7 else (toString bytes.length).length
      let column (n : Nat) : String :=
        let s := toString n
        String.ofList (List.replicate (width - s.length) ' ') ++ s
      let operand := a.operands.head?.map (" " ++ ·)
      { tree, output := encode (" ".intercalate (chosen.map column) ++ operand.getD "" ++ "\n") }
  | .error e => complaint name (a.operands.headD "" ++ ": " ++ e.description) 1 tree

end GameExport.Shell.Tool
