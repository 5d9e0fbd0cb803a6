import GameExport.Text.Quoted

/-! # JSON values and their text

A value is written compactly, without any blanks, or laid out with one member or item a line and
two spaces for each level. Strings escape quotation marks, backslashes and the characters below
the space, and nothing else.
-/

namespace GameExport

/-- JSON data to be written: the members of an object keep their order. -/
inductive Json where
  | null
  | bool (b : Bool)
  | int (n : Int)
  | str (s : String)
  | arr (items : List Json)
  | obj (members : List (String × Json))

namespace Json

/-- How one character stands in a written string. -/
def escapedChar (c : Char) : List Char :=
  match c with
  | '\"' => ['\\', '\"']
  | '\\' => ['\\', '\\']
  | '\x08' => ['\\', 'b']
  | '\x0c' => ['\\', 'f']
  | '\n' => ['\\', 'n']
  | '\r' => ['\\', 'r']
  | '\t' => ['\\', 't']
  | _ =>
      if c.toNat < 0x20 then
        ['\\', 'u', '0', '0', Nat.digitChar (c.toNat / 16), Nat.digitChar (c.toNat % 16)]
      else [c]

def writeString (s : String) : List Char :=
  '\"' :: s.toList.flatMap escapedChar ++ ['\"']

def writeInt : Int → List Char
  | .ofNat n => Nat.toDigits 10 n
  | .negSucc n => '-' :: Nat.toDigits 10 (n + 1)

def writeBool : Bool → List Char
  | true => ['t', 'r', 'u', 'e']
  | false => ['f', 'a', 'l', 's', 'e']

/-- How containers are laid out: what stands before an item on a level, before the closing
bracket of a level, and after a key. -/
structure Layout where
  itemStart : Nat → List Char
  closing : Nat → List Char
  afterKey : List Char

def Layout.compact : Layout := ⟨fun _ => [], fun _ => [], [':']⟩

/-- One item a line, two spaces a level. -/
def Layout.pretty : Layout :=
  let line (level : Nat) := '\n' :: List.replicate (2 * level) ' '
  ⟨fun level => line (level + 1), line, [':', ' ']⟩

mutual

/-- The text of a value that stands on the given level. Empty containers stay on one line. -/
def write (layout : Layout) (level : Nat) : Json → List Char
  | .null => ['n', 'u', 'l', 'l']
  | .bool b => writeBool b
  | .int n => writeInt n
  | .str s => writeString s
  | .arr [] => ['[', ']']
  | .arr (item :: items) =>
      '[' :: layout.itemStart level ++ write layout (level + 1) item ++
        writeItems layout level items ++ layout.closing level ++ [']']
  | .obj [] => ['\x7b', '\x7d']
  | .obj ((key, value) :: members) =>
      '\x7b' :: layout.itemStart level ++ writeString key ++ layout.afterKey ++
        write layout (level + 1) value ++ writeMembers layout level members ++
        layout.closing level ++ ['\x7d']

/-- The items after the first one, each behind a comma. -/
def writeItems (layout : Layout) (level : Nat) : List Json → List Char
  | [] => []
  | item :: items =>
      ',' :: layout.itemStart level ++ write layout (level + 1) item ++
        writeItems layout level items

/-- The members after the first one, each behind a comma. -/
def writeMembers (layout : Layout) (level : Nat) : List (String × Json) → List Char
  | [] => []
  | (key, value) :: members =>
      ',' :: layout.itemStart level ++ writeString key ++ layout.afterKey ++
        write layout (level + 1) value ++ writeMembers layout level members

end

def compact (v : Json) : String := String.ofList (v.write .compact 0)

/-- The text with one item a line, without a final line break. -/
def pretty (v : Json) : String := String.ofList (v.write .pretty 0)

def strings (ss : List String) : Json := .arr (ss.map .str)

end Json

end GameExport
