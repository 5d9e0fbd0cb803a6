import GameExport.Asset
import GameExport.Job

/-! # Metadata of assets

The editor keeps a metadata file beside every asset, with an identifier by which other assets
refer to it.
-/

namespace GameExport

/-- An identifier of 128 bits, made at random: six of its bits say so. -/
structure Guid where
  bits : BitVec 128
  version : bits.extractLsb' 76 4 = 4
  variant : bits.extractLsb' 62 2 = 2
  deriving DecidableEq

namespace Guid

/-- The identifier with the given bits where it has a choice. -/
def ofRandom (r : BitVec 128) : Guid where
  bits := r.extractLsb' 80 48 ++ 4#4 ++ r.extractLsb' 64 12 ++ 2#2 ++ r.extractLsb' 0 62
  version := by
    simp only [BitVec.extractLsb'_append_eq_ite]
    simp
  variant := by
    simp only [BitVec.extractLsb'_append_eq_ite]
    simp

def text (g : Guid) : String :=
  String.ofList ((List.range 32).map fun i =>
    Nat.digitChar (g.bits.extractLsb' (4 * (31 - i)) 4).toNat)

end Guid

namespace Metadata

/-- The metadata file of an asset stands beside it. -/
def path (asset : Path) : Path := asset.withSuffix ".meta"

def script (guid : Guid) : String :=
  "fileFormatVersion: 2\n" ++
  "guid: " ++ guid.text ++ "\n" ++
  "MonoImporter:\n" ++
  "  externalObjects: \x7b\x7d\n" ++
  "  serializedVersion: 2\n" ++
  "  defaultReferences: []\n" ++
  "  executionOrder: 0\n" ++
  "  icon: \x7binstanceID: 0\x7d\n" ++
  "  userData: \n" ++
  "  assetBundleName: \n" ++
  "  assetBundleVariant: \n"

end Metadata

/-- Writes the metadata of a script whose file is given. -/
abbrev MetadataWriter (σ : Type) := ScriptAsset → Path → Work σ Unit

/-- How many identifiers have been drawn, and how many metadata files written with them. -/
structure GuidRecord where
  drawn : Nat := 0
  written : Nat := 0
  deriving DecidableEq

/-- Gives every script a fresh identifier, from those that are drawn one after the other. -/
def MetadataWriter.ofGuids (draw : Nat → Guid) : MetadataWriter GuidRecord :=
  fun _ file => do
    let record ← Action.ask Prod.snd
    Work.note fun r => { r with drawn := r.drawn + 1 }
    Action.during (.writing (Metadata.path file))
      (Work.files (Disk.writeText (Metadata.path file) (Metadata.script (draw record.drawn))))
    Work.note fun r => { r with written := r.written + 1 }

end GameExport
