import GameExport.Json.Numeral

/-! # Documents, whole or broken off

A text is read as far as it goes. What comes out is a tree in which a value may break off: then
the tree says where and how. Whoever walks the tree from left to right meets the fault of the text
where it stands, after everything that comes before it.
-/

namespace GameExport.Json

/-- Why a text is not JSON: it ends too early, or a character cannot stand where it stands. -/
inductive Fault where
  | ended
  | malformed
  deriving DecidableEq

def Fault.message : Fault → String
  | .ended => "JSON: unexpected end"
  | .malformed => "JSON: syntax error"

/-- One unit of a string: a character, or half of a surrogate pair written as an escape. -/
inductive TextUnit where
  | char (c : Char)
  | surrogate (code : Nat)
  deriving DecidableEq

/-- A string as it is written, and how it breaks off if it does. -/
structure Spelling where
  units : List TextUnit
  fault : Option Fault
  deriving DecidableEq

/-- The character that a high and a low surrogate encode together. -/
def pairOfSurrogates (high low : Nat) : Char :=
  Char.ofNat (0x10000 + (high - 0xD800) * 0x400 + (low - 0xDC00))

/-- The characters that units spell. A high surrogate must be followed by a low one, and a low one
must follow a high one. -/
def charsOfUnits : List TextUnit → Option Fault → Except Fault (List Char)
  | [], none => .ok []
  | [], some f => .error f
  | .char c :: us, f => (c :: ·) <$> charsOfUnits us f
  | .surrogate high :: us, f =>
      if high < 0xDC00 then
        match us with
        | [] => .error (f.getD .malformed)
        | .surrogate low :: rest =>
            if 0xDC00 ≤ low then (pairOfSurrogates high low :: ·) <$> charsOfUnits rest f
            else .error .malformed
        | .char _ :: _ => .error .malformed
      else .error .malformed

namespace Spelling

def text (s : Spelling) : Except Fault String :=
  String.ofList <$> charsOfUnits s.units s.fault

/-- The spelling of a text without any escape of a surrogate. -/
def ofString (s : String) : Spelling := ⟨s.toList.map .char, none⟩

theorem charsOfUnits_map_char (cs : List Char) :
    charsOfUnits (cs.map .char) none = .ok cs := by
  induction cs with
  | nil => rfl
  | cons c r ih => simp only [List.map_cons, charsOfUnits, ih, Functor.map, Except.map]

@[simp] theorem text_ofString (s : String) : (ofString s).text = .ok s := by
  simp only [text, ofString, charsOfUnits_map_char, String.ofList_toList, Except.map,
    Functor.map]

end Spelling

/-- A value without parts. Numbers and words may be cut: a number cut at the end of the text is
told from one that is malformed. -/
inductive Leaf where
  | null
  | bool (b : Bool)
  | number (n : Numeral)
  | string (s : Spelling)
  | cutNumber (atEnd : Bool)
  | cutWord (f : Fault)
  deriving DecidableEq

/-- A value breaks off within such a leaf. -/
def Leaf.isBroken : Leaf → Bool
  | .string s => s.fault.isSome
  | .cutNumber _ => true
  | .cutWord _ => true
  | _ => false

/-- A value as far as it goes. `broken` stands where a value should start and none does. The fault
of a container stands where a separator or the closing bracket should be. -/
inductive Node where
  | leaf (l : Leaf)
  | array (items : List Node) (fault : Option Fault)
  | object (members : List (Node × Node)) (fault : Option Fault)
  | broken (f : Fault)

/-- A text read from its start: the value, and whether nothing but blanks follows it. -/
structure Document where
  root : Node
  closed : Bool

namespace Node

def ofString (s : String) : Node := .leaf (.string (.ofString s))

/-- The first fault of a value of which nothing is wanted. Surrogates need no partner and numbers
may be of any size here; a cut number is malformed wherever it ends. -/
def leafFault : Leaf → Option Fault
  | .string s => s.fault
  | .cutNumber _ => some .malformed
  | .cutWord f => some f
  | _ => none

mutual

def skipFault : Node → Option Fault
  | .leaf l => leafFault l
  | .array items f => (skipItems items).or f
  | .object members f => (skipMembers members).or f
  | .broken f => some f

def skipItems : List Node → Option Fault
  | [] => none
  | n :: ns => n.skipFault.or (skipItems ns)

def skipMembers : List (Node × Node) → Option Fault
  | [] => none
  | (k, v) :: ms => ((keyFault k).or v.skipFault).or (skipMembers ms)

/-- A key must be a string. -/
def keyFault : Node → Option Fault
  | .leaf (.string s) => s.fault
  | .broken f => some f
  | _ => some .malformed

end

/-- Values may be nested this deep where they are kept for later. -/
def depthLimit : Nat := 127

/-- The first fault of a leaf that is kept for later. -/
def strictLeafFault : Leaf → Option Fault
  | .string s => match s.text with
      | .ok _ => none
      | .error f => some f
  | .number n => if n.value.isNone then some .malformed else none
  | .cutNumber atEnd => some (if atEnd then .ended else .malformed)
  | .cutWord f => some f
  | _ => none

/-- The text of a key, which must be a string. -/
def keyText : Node → Except Fault String
  | .leaf (.string s) => s.text
  | .broken f => .error f
  | _ => .error .malformed

mutual

/-- The first fault of a value that is kept for later and stands inside `depth` containers. -/
def strictFault (depth : Nat) : Node → Option Fault
  | .leaf l => strictLeafFault l
  | .array items f =>
      if depth < depthLimit then (strictItems (depth + 1) items).or f else some .malformed
  | .object members f =>
      if depth < depthLimit then (strictMembers (depth + 1) members).or f else some .malformed
  | .broken f => some f

def strictItems (depth : Nat) : List Node → Option Fault
  | [] => none
  | n :: ns => (strictFault depth n).or (strictItems depth ns)

def strictMembers (depth : Nat) : List (Node × Node) → Option Fault
  | [] => none
  | (k, v) :: ms =>
      ((match k.keyText with
        | .ok _ => none
        | .error f => some f).or (strictFault depth v)).or (strictMembers depth ms)

end

end Node

end GameExport.Json
