import GameExport.Json.Node
import GameExport.Text.Quoted
import GameExport.Version

/-! # What is wrong with a document

A document is refused for a fault of its text, or because its data are not those of the record
that is read. The data are named in a message by their shape.
-/

namespace GameExport.Json

inductive Shape where
  | null
  | bool (b : Bool)
  | int (n : Int)
  | float (text : String)
  | string (s : String)
  | sequence
  | map
  deriving DecidableEq

def Shape.text : Shape → String
  | .null => "null"
  | .bool b => "boolean `" ++ (if b then "true" else "false") ++ "`"
  | .int n => "integer `" ++ toString n ++ "`"
  | .float t => "floating point `" ++ t ++ "`"
  | .string s => "string " ++ Text.quoted s
  | .sequence => "sequence"
  | .map => "map"

/-- Why a document is not the record that is wanted. -/
inductive ReadError where
  | fault (f : Fault)
  | missingField (name : String)
  | duplicateField (name : String)
  | unknownVariant (found : String) (known : List String)
  | invalidType (found : Shape) (wanted : String)
  | invalidInt (found : Int) (wanted : String)
  | invalidLength (length : Nat) (wanted : String)
  | notSingleKey
  | invalidVersion (e : InvalidVersion)
  deriving DecidableEq

/-- A choice of names: two are joined by "or", more are listed. -/
def choiceText : List String → String
  | [] => "there are no variants"
  | [a] => "expected `" ++ a ++ "`"
  | [a, b] => "expected `" ++ a ++ "` or `" ++ b ++ "`"
  | names => "expected one of " ++ String.intercalate ", " (names.map fun n => "`" ++ n ++ "`")

def ReadError.message : ReadError → String
  | .fault f => f.message
  | .missingField name => "missing field `" ++ name ++ "`"
  | .duplicateField name => "duplicate field `" ++ name ++ "`"
  | .unknownVariant found known => "unknown variant `" ++ found ++ "`, " ++ choiceText known
  | .invalidType found wanted => "invalid type: " ++ found.text ++ ", expected " ++ wanted
  | .invalidInt found wanted =>
      "invalid value: integer `" ++ toString found ++ "`, expected " ++ wanted
  | .invalidLength length wanted =>
      "invalid length " ++ toString length ++ ", expected " ++ wanted
  | .notSingleKey => "invalid value: map, expected map with a single key"
  | .invalidVersion e => e.message

/-- The shape of a value. A leaf is read to its end for that, a container is not looked into. -/
def Node.shape : Node → Except Fault Shape
  | .leaf .null => .ok .null
  | .leaf (.bool b) => .ok (.bool b)
  | .leaf (.number n) =>
      match n.value with
      | some (.int i) => .ok (.int i)
      | some (.float x) => .ok (.float (String.ofList (Decimal.text x)))
      | none => .error .malformed
  | .leaf (.string s) => .string <$> s.text
  | .leaf (.cutNumber atEnd) => .error (if atEnd then .ended else .malformed)
  | .leaf (.cutWord f) => .error f
  | .array _ _ => .ok .sequence
  | .object _ _ => .ok .map
  | .broken f => .error f

/-- The error of a value that is not of the wanted kind. -/
def Node.mismatch (n : Node) (wanted : String) : ReadError :=
  match n.shape with
  | .ok s => .invalidType s wanted
  | .error f => .fault f

end GameExport.Json
