import GameExport.Asset
import GameExport.Decompile.ManagedAssembly
import GameExport.Disk.Files
import GameExport.Failure

/-! # Export manifests

A manifest lists what to export: game files or archives, the assemblies to look for in them, and
the assets.
-/

namespace GameExport

structure Manifest where
  inputs : List Path := []
  assemblies : List Path := []
  assets : List Asset := []
  deriving DecidableEq

namespace Manifest

def paths : Json.Decoder (List Path) := fun p n =>
  List.map Path.mk <$> Json.Decoder.list Json.Decoder.path p n

open Json in
/-- Every list may be left out. -/
def record : RecordDecoder Manifest :=
  (((RecordDecoder.pure mk).optional "inputs" paths []).optional "assemblies" paths []).optional
    "assets" (Decoder.list Asset.decode) []

def decode : Json.Decoder Manifest := record.decode "struct ExportManifest"

def parse (text : String) : Except Json.ReadError Manifest := Json.parse decode text

def toJson (m : Manifest) : Json :=
  .obj [("inputs", .strings (m.inputs.map Path.text)),
    ("assemblies", .strings (m.assemblies.map Path.text)),
    ("assets", .arr (m.assets.map Asset.toJson))]

def load (t : FileTree) (p : Path) : Except Failure Manifest :=
  match Disk.readText t p with
  | .error e => .error (.during (.readingManifest p) (.file e))
  | .ok text =>
      match parse text with
      | .error e => .error (.during (.parsingManifest p) (.document e))
      | .ok m => .ok m

/-- Where an assembly is found: a relative path is looked for in the staged directories in order.
One that is nowhere stays as it is. -/
def resolve (t : FileTree) (staged : List Path) (assembly : Path) : Path :=
  if assembly.isAbsolute then assembly
  else
    let candidates := (staged.filter t.isDirectory).map (·.join assembly)
    (candidates.find? t.isFile).getD assembly

/-- The assemblies of a manifest, found among the staged inputs. -/
def resolveAssemblies (m : Manifest) (t : FileTree) (staged : List Path) : List ManagedAssembly :=
  m.assemblies.map fun a => .ofPath (resolve t staged a)

end Manifest

end GameExport
