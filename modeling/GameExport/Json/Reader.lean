import GameExport.Json.Token

/-! # From tokens to documents

The reader keeps the containers that are open, innermost first. Where the text breaks off, they
are closed around what has been read, so that the fault stays at its place in the tree.
-/

namespace GameExport.Json

/-- An open container with its last item or member first. An open object also has the key whose
value is being read. -/
inductive Frame where
  | array (items : List Node)
  | object (members : List (Node × Node)) (key : Node)

namespace Frame

/-- The container with one more value, closed as the fault says. -/
def close (n : Node) (fault : Option Fault) : Frame → Node
  | .array items => .array (n :: items).reverse fault
  | .object members key => .object ((key, n) :: members).reverse fault

end Frame

namespace Reader

/-- The document of a value inside open containers behind which nothing more is read. -/
def stop : Node → List Frame → Document
  | n, [] => ⟨n, true⟩
  | n, frame :: frames => stop (frame.close n none) frames

/-- What stands at a key that is no string, and so ends the reading. -/
def keyOf : Token → Node
  | .leaf l => .leaf l
  | .openArray => .array [] none
  | .openObject => .object [] none
  | _ => .broken .malformed

mutual

def value : List Token → List Frame → Document
  | [], frames => stop (.broken .ended) frames
  | .leaf l :: ts, frames =>
      if l.isBroken then stop (.leaf l) frames else after (.leaf l) ts frames
  | .openArray :: .closeArray :: ts, frames => after (.array [] none) ts frames
  | .openArray :: ts, frames => value ts (.array [] :: frames)
  | .openObject :: .closeObject :: ts, frames => after (.object [] none) ts frames
  | .openObject :: ts, frames => key [] ts frames
  | _ :: _, frames => stop (.broken .malformed) frames

def after (n : Node) : List Token → List Frame → Document
  | ts, [] => ⟨n, ts.isEmpty⟩
  | [], frame :: frames => stop (frame.close n (some .ended)) frames
  | .comma :: ts, .array items :: frames => value ts (.array (n :: items) :: frames)
  | .comma :: ts, .object members k :: frames => key ((k, n) :: members) ts frames
  | .closeArray :: ts, .array items :: frames => after (.array (n :: items).reverse none) ts frames
  | .closeObject :: ts, .object members k :: frames =>
      after (.object ((k, n) :: members).reverse none) ts frames
  | _ :: _, frame :: frames => stop (frame.close n (some .malformed)) frames

/-- Reads where the key of a member should start, behind the members given last first. -/
def key (members : List (Node × Node)) : List Token → List Frame → Document
  | [], frames =>
      stop (.object ((.broken .ended, .broken .ended) :: members).reverse none) frames
  | .leaf (.string s) :: ts, frames =>
      let k := Node.leaf (.string s)
      if s.fault.isSome then stop (.broken .malformed) (.object members k :: frames)
      else match ts with
        | .colon :: rest => value rest (.object members k :: frames)
        | [] => stop (.broken .ended) (.object members k :: frames)
        | _ :: _ => stop (.broken .malformed) (.object members k :: frames)
  | t :: _, frames => stop (.broken .malformed) (.object members (keyOf t) :: frames)

end

end Reader

/-- Reads a text as far as it goes. -/
def Document.read (text : String) : Document := Reader.value (Token.ofChars text.toList) []

end GameExport.Json
