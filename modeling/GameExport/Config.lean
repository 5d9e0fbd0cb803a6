import GameExport.Decompile.Settings
import GameExport.Disk.Files

/-! # Configuration

Every part of a configuration has a default, so a file that is missing or says little is enough.
-/

namespace GameExport

/-- Where packages are unpacked, and how long the random folder names are. -/
structure WorkspaceConfig where
  rootName : String := "temp"
  nameLength : UInt64 := 10
  deriving DecidableEq

namespace WorkspaceConfig

open Json in
def record : RecordDecoder WorkspaceConfig :=
  ((RecordDecoder.pure mk).optional "rootName" Decoder.string "temp").optional
    "randomNameLength" Decoder.size 10

def decode : Json.Decoder WorkspaceConfig := record.decode "struct WorkspaceConfig"

def toJson (c : WorkspaceConfig) : Json :=
  .obj [("rootName", .str c.rootName), ("randomNameLength", .int c.nameLength.toNat)]

end WorkspaceConfig

/-- The version that projects are exported for when nothing else is said. -/
def defaultExportVersion : Version := ⟨2021, 3, 0, some ⟨'f', 1, by decide⟩⟩

/-- The command that is run when nothing else is said. -/
def defaultDecompilerCommand : String := "ilspycmd"

structure Config where
  workspace : WorkspaceConfig := {}
  scripts : DecompileSettings := {}
  exportVersion : Version := defaultExportVersion
  decompilerCommand : String := defaultDecompilerCommand
  deriving DecidableEq

namespace Config

def fileName : String := "assetstage.json"

open Json in
def record : RecordDecoder Config :=
  ((((RecordDecoder.pure mk).optional "workspace" WorkspaceConfig.decode {}).optional "scripts"
    DecompileSettings.decode {}).optional "exportVersion" Decoder.version
      defaultExportVersion).optional "decompilerCommand" Decoder.string defaultDecompilerCommand

def decode : Json.Decoder Config := record.decode "struct ExportConfig"

def parse (text : String) : Except Json.ReadError Config := Json.parse decode text

def toJson (c : Config) : Json :=
  .obj [("workspace", c.workspace.toJson), ("scripts", c.scripts.toJson),
    ("exportVersion", .str c.exportVersion.text), ("decompilerCommand", .str c.decompilerCommand)]

/-- The settings with the language decided for the export version. -/
def settings (c : Config) : DecompileSettings :=
  ⟨c.scripts.language.resolve c.exportVersion, c.scripts.level⟩

end Config

inductive ConfigError where
  | cannotRead (e : FileError)
  | cannotParse (e : Json.ReadError)
  deriving DecidableEq

namespace ConfigError

def cause : ConfigError → String
  | .cannotRead e => e.message
  | .cannotParse e => e.message

def message : ConfigError → String
  | .cannotRead e => "Failed to read config file: " ++ e.message
  | .cannotParse e => "Failed to parse config file: " ++ e.message

end ConfigError

/-- Reads a configuration file. If there is none, everything is as by default. -/
def Config.load (t : FileTree) (p : Path) : Except ConfigError Config :=
  if !t.contains p then .ok {}
  else match Disk.readText t p with
    | .error e => .error (.cannotRead e)
    | .ok text => (parse text).mapError .cannotParse

end GameExport
