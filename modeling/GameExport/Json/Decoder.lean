import GameExport.Json.Error
import GameExport.Json.Reader

/-! # Reading values and records

A decoder turns a value into data or says what is wrong with it. It walks the value from left to
right, so of two errors the one that stands first in the text is reported. A record may be
written as an object with its fields in any order, or as an array of its fields in the order in
which they are declared.
-/

namespace GameExport.Json

/-- Where a value comes from. A text is judged where it stands; a value that was kept or parsed
before is complete and well formed, and some errors are worded otherwise for it. -/
inductive Source where
  | text
  | kept
  | parsed
  deriving DecidableEq

/-- Where a value stands: its source, and how many containers surround it. -/
structure Place where
  source : Source
  depth : Nat
  deriving DecidableEq

/-- The place of the parts of a container. -/
def Place.inner (p : Place) : Place := ⟨p.source, p.depth + 1⟩

abbrev Decoder (α : Type) := Place → Node → Except ReadError α

namespace Decoder

variable {α β : Type}

/-- Fails with a fault of the text if there is one. -/
def require : Option Fault → Except ReadError Unit
  | none => .ok ()
  | some f => .error (.fault f)

/-- The text of a spelling, for which a fault is an error. -/
def ofSpelling (s : Spelling) : Except ReadError String := s.text.mapError .fault

def string : Decoder String
  | _, .leaf (.string s) => ofSpelling s
  | _, n => .error (n.mismatch "a string")

def path : Decoder String
  | _, .leaf (.string s) => ofSpelling s
  | _, n => .error (n.mismatch "path string")

def bool : Decoder Bool
  | _, .leaf (.bool b) => .ok b
  | _, n => .error (n.mismatch "a boolean")

/-- An integer within bounds, of the kind named. -/
def intWithin (low high : Int) (kind : String) : Decoder Int
  | _, .leaf (.number n) =>
      match n.value with
      | some (.int i) => if low ≤ i ∧ i ≤ high then .ok i else .error (.invalidInt i kind)
      | _ => .error ((Node.leaf (.number n)).mismatch kind)
  | _, n => .error (n.mismatch kind)

def size : Decoder UInt64 := fun p n =>
  (fun i => i.toNat.toUInt64) <$> intWithin 0 0xFFFFFFFFFFFFFFFF "usize" p n

def int32 : Decoder Int32 := fun p n =>
  Int32.ofInt <$> intWithin (-0x80000000) 0x7FFFFFFF "i32" p n

def version : Decoder Version := fun p n => do
  let s ← string p n
  (Version.parse s).mapError .invalidVersion

/-! ## Lists -/

/-- Reads the items of an array from left to right. -/
def items (d : Decoder α) (p : Place) : List Node → Except ReadError (List α)
  | [] => .ok []
  | n :: ns => do
      let a ← d p n
      let as ← items d p ns
      pure (a :: as)

def list (d : Decoder α) : Decoder (List α)
  | p, .array ns fault => do
      let as ← items d p.inner ns
      require fault
      pure as
  | _, n => .error (n.mismatch "a sequence")

/-! ## Choices -/

/-- The value of a name among those that are known. -/
def variant (table : List (String × α)) (name : String) : Except ReadError α :=
  match table.lookup name with
  | some a => .ok a
  | none => .error (.unknownVariant name (table.map Prod.fst))

def unit : Decoder Unit
  | _, .leaf .null => .ok ()
  | _, n => .error (n.mismatch "unit")

/-- A name that says which variant is meant. -/
def variantName : Node → Except ReadError String
  | .leaf (.string s) => ofSpelling s
  | n => .error (n.mismatch "variant identifier")

/-- A choice written as an object with one member whose value is null. -/
def choiceMember (table : List (String × α)) (p : Place) (ms : List (Node × Node))
    (fault : Option Fault) : Except ReadError α :=
  match ms with
  | [] => .error (.fault (fault.getD .malformed))
  | (k, v) :: rest => do
      let name ← k.keyText.mapError .fault
      let a ← variant table name
      unit p v
      require (if rest.isEmpty then fault else some .malformed)
      pure a

/-- A choice is a name, or an object with the name as its only key. In a text, whatever starts
otherwise cannot stand there at all. -/
def choice (table : List (String × α)) : Decoder α
  | _, .leaf (.string s) => do
      let name ← ofSpelling s
      variant table name
  | p, .object ms fault =>
      if p.source ≠ .text ∧ ms.length ≠ 1 then .error .notSingleKey
      else choiceMember table p.inner ms fault
  | p, n =>
      match p.source with
      | .text =>
          match n with
          | .broken f => .error (.fault f)
          | _ => .error (.fault .malformed)
      | _ => .error (n.mismatch "string or map")

end Decoder

/-! ## Records -/

/-- What is checked of one field while the text is walked, and whether the field may be absent. -/
structure Field where
  name : String
  optional : Bool
  check : Place → Node → Except ReadError Unit

/-- How a record is read: every field is checked where it stands, and when all of them are, the
record is put together from the values found under the names of its fields. -/
structure RecordDecoder (α : Type) where
  fields : List Field
  build : Place → (String → Option Node) → Except ReadError α

namespace RecordDecoder

variable {α β : Type}

def pure (a : α) : RecordDecoder α := ⟨[], fun _ _ => .ok a⟩

/-- One more field, which has to be there. -/
def required (r : RecordDecoder (α → β)) (name : String) (d : Decoder α) : RecordDecoder β where
  fields := r.fields ++ [⟨name, false, fun p n => (fun _ => ()) <$> d p n⟩]
  build p find := do
    let f ← r.build p find
    match find name with
    | some n => f <$> d p n
    | none => .error (.missingField name)

/-- One more field, with the value that it has when it is absent. -/
def optional (r : RecordDecoder (α → β)) (name : String) (d : Decoder α) (absent : α) :
    RecordDecoder β where
  fields := r.fields ++ [⟨name, true, fun p n => (fun _ => ()) <$> d p n⟩]
  build p find := do
    let f ← r.build p find
    match find name with
    | some n => f <$> d p n
    | none => .ok (f absent)

/-- Checks members from left to right. A field may occur once; the value of a name that is no
field is skipped, so it has to be JSON and no more. -/
def checkMembers (fields : List Field) (p : Place) :
    List String → List (Node × Node) → Except ReadError Unit
  | _, [] => .ok ()
  | seen, (k, v) :: ms => do
      let name ← k.keyText.mapError .fault
      match fields.find? (·.name = name) with
      | some field =>
          if name ∈ seen then throw (.duplicateField name)
          field.check p v
          checkMembers fields p (name :: seen) ms
      | none =>
          Decoder.require v.skipFault
          checkMembers fields p seen ms

/-- The value of the first member with a name. -/
def findMember : List (Node × Node) → String → Option Node
  | [], _ => none
  | (k, v) :: ms, name =>
      match k.keyText with
      | .ok t => if t = name then some v else findMember ms name
      | .error _ => findMember ms name

/-- Checks items against the fields in order. When the items end, the fields that are left may
have to be there; `index` counts the fields before. -/
def checkItems (wanted : String) (fault : Option Fault) (p : Place) :
    Nat → List Field → List Node → Except ReadError Unit
  | _, [], _ => .ok ()
  | index, field :: fields, n :: ns => do
      field.check p n
      checkItems wanted fault p (index + 1) fields ns
  | index, field :: fields, [] => do
      Decoder.require fault
      if field.optional then checkItems wanted fault p (index + 1) fields []
      else .error (.invalidLength index wanted)

/-- Items beyond the last field: a text cannot go on there. -/
def checkEnd (source : Source) (count total : Nat) (fault : Option Fault) :
    Except ReadError Unit :=
  if total ≤ count then Decoder.require fault
  else match source with
    | .text => .error (.fault .malformed)
    | .kept => .error (.invalidLength total
        (toString count ++ (if count = 1 then " element" else " elements") ++ " in sequence"))
    | .parsed => .error (.invalidLength total "fewer elements in array")

/-- The item at the position of the field with a name. -/
def findItem : List Field → List Node → String → Option Node
  | field :: fields, n :: ns, name => if field.name = name then some n else findItem fields ns name
  | _, _, _ => none

/-- Reads the record called `wanted` in messages, without the phrase for its number of fields. -/
def decode (r : RecordDecoder α) (wanted : String) : Decoder α
  | p, .object ms fault => do
      checkMembers r.fields p.inner [] ms
      Decoder.require fault
      r.build p.inner (findMember ms)
  | p, .array ns fault => do
      let count := r.fields.length
      let elements :=
        if count = 1 then " with 1 element" else " with " ++ toString count ++ " elements"
      checkItems (wanted ++ elements) fault p.inner 0 r.fields ns
      checkEnd p.source count ns.length fault
      r.build p.inner (findItem r.fields ns)
  | _, n => .error (n.mismatch wanted)

end RecordDecoder

/-- Reads a whole text: nothing but blanks may follow the value. -/
def Document.decode {α : Type} (doc : Document) (d : Decoder α) : Except ReadError α := do
  let a ← d ⟨.text, 0⟩ doc.root
  if doc.closed then pure a else .error (.fault .malformed)

def parse {α : Type} (d : Decoder α) (text : String) : Except ReadError α :=
  (Document.read text).decode d

end GameExport.Json
