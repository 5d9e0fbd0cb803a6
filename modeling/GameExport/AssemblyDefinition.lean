import GameExport.FileName
import GameExport.Descriptor
import GameExport.Json.Decoder
import GameExport.Json.Value

/-! # Assembly definitions

A definition file tells the editor to compile the scripts of a folder into an assembly of their
own. Editors know such files from version 2017.3 on.
-/

namespace GameExport

structure AssemblyDefinition where
  name : String
  references : List String := []
  includePlatforms : List String := []
  excludePlatforms : List String := []
  allowUnsafeCode : Bool
  autoReferenced : Bool := true
  deriving DecidableEq

namespace AssemblyDefinition

/-- The definition of an exported assembly. Decompiled code may hold pointers. -/
def ofName (name : String) : AssemblyDefinition := { name, allowUnsafeCode := true }

open Json in
def record : RecordDecoder AssemblyDefinition :=
  ((((((RecordDecoder.pure mk).required "name" Decoder.string).optional "references"
    (Decoder.list Decoder.string) []).optional "includePlatforms" (Decoder.list Decoder.string)
      []).optional "excludePlatforms" (Decoder.list Decoder.string) []).optional
        "allowUnsafeCode" Decoder.bool false).optional "autoReferenced" Decoder.bool true

def decode : Json.Decoder AssemblyDefinition := record.decode "struct AssemblyDefinition"

def toJson (d : AssemblyDefinition) : Json :=
  .obj [("name", .str d.name), ("references", .strings d.references),
    ("includePlatforms", .strings d.includePlatforms),
    ("excludePlatforms", .strings d.excludePlatforms),
    ("allowUnsafeCode", .bool d.allowUnsafeCode), ("autoReferenced", .bool d.autoReferenced)]

/-- Editors of this version and newer know assembly definitions. -/
def supportedBy (v : Version) : Bool := v.isAtLeast 2017 3

/-- The definition file of an assembly stands in the directory of its sources. -/
def path (d : Descriptor) : Path :=
  d.directory.join (FileName.sanitize d.name ++ ".asmdef")

end AssemblyDefinition

end GameExport
