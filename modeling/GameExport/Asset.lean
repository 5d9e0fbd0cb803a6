import GameExport.Assembly
import GameExport.Json.Decoder
import GameExport.Json.Value

/-! # Assets

Of the assets of a game only the script assets matter here. A script asset names a class in an
assembly; its source file is what gets exported.
-/

namespace GameExport

/-- The reference from game data to a class. The assembly may come with its extension. -/
structure ScriptAsset where
  assemblyName : String
  ns : String
  className : String
  deriving DecidableEq

/-- An asset as exporters see it. -/
inductive Asset where
  | script (s : ScriptAsset)
  | other (classId : Int32) (name : String)
  deriving DecidableEq

namespace ScriptAsset

def assembly (s : ScriptAsset) : String := Assembly.baseName s.assemblyName

def isEngine (s : ScriptAsset) : Bool := Assembly.isEngine s.assemblyName

/-- The class with its namespace in front, if it has one. -/
def fullName (s : ScriptAsset) : String :=
  if s.ns = "" then s.className else s.ns ++ "." ++ s.className

open Json in
/-- The namespace may be left out. -/
def record : RecordDecoder ScriptAsset :=
  (((RecordDecoder.pure mk).required "assemblyName" Decoder.string).optional "namespace"
    Decoder.string "").required "className" Decoder.string

def decode : Json.Decoder ScriptAsset := record.decode "struct ScriptAsset"

def members (s : ScriptAsset) : List (String × Json) :=
  [("assemblyName", .str s.assemblyName), ("namespace", .str s.ns), ("className", .str s.className)]

def toJson (s : ScriptAsset) : Json := .obj s.members

end ScriptAsset

namespace Asset

def script? : Asset → Option ScriptAsset
  | .script s => some s
  | .other _ _ => none

def scripts (assets : List Asset) : List ScriptAsset := assets.filterMap script?

/-! ## As JSON

An asset is an object whose member `type` says what else is in it, or an array that starts with
the type. All parts are read and kept before the type is looked at, so they have to be well
formed and not too deeply nested, known or not.
-/

inductive Kind where
  | script
  | other
  deriving DecidableEq

def kinds : List (String × Kind) := [("script", .script), ("other", .other)]

open Json Decoder

/-- The fields of an asset that is no script. -/
def otherRecord : RecordDecoder Asset :=
  ((RecordDecoder.pure Asset.other).required "classId" int32).required "name" string

/-- Reads the parts that stand beside the type. -/
def decodeKind : Kind → Decoder Asset
  | .script => fun p n => .script <$> ScriptAsset.decode p n
  | .other => otherRecord.decode "struct variant Asset::Other"

def decodeType (n : Node) : Except ReadError Kind := do
  let name ← variantName n
  variant kinds name

/-- Finds the type among members from left to right and checks the values of the others. -/
def scanMembers (p : Place) : Option Kind → List (Node × Node) → Except ReadError (Option Kind)
  | kind, [] => .ok kind
  | kind, (k, v) :: ms => do
      let name ← k.keyText.mapError .fault
      if name = "type" then
        if kind.isSome then throw (.duplicateField "type")
        let found ← decodeType v
        scanMembers p (some found) ms
      else
        require (v.strictFault p.depth)
        scanMembers p kind ms

def dropType (ms : List (Node × Node)) : List (Node × Node) :=
  ms.filter fun m =>
    match m.1.keyText with
    | .ok name => name ≠ "type"
    | .error _ => true

def decode : Decoder Asset
  | p, .object ms fault => do
      let kind ← scanMembers p.inner none ms
      require fault
      match kind with
      | none => throw (.missingField "type")
      | some k => decodeKind k ⟨.kept, p.depth⟩ (.object (dropType ms) none)
  | p, .array ns fault => do
      match ns with
      | [] =>
          require fault
          throw (.missingField "type")
      | first :: rest =>
          let k ← decodeType first
          require ((Node.strictItems p.inner.depth rest).or fault)
          decodeKind k ⟨.kept, p.depth⟩ (.array rest none)
  | _, n => .error (n.mismatch "internally tagged enum Asset")

def toJson : Asset → Json
  | .script s => .obj (("type", .str "script") :: s.members)
  | .other classId name =>
      .obj [("type", .str "other"), ("classId", .int classId.toInt), ("name", .str name)]

end Asset

end GameExport
