import GameExport.Json.Decoder
import GameExport.Json.Value
import GameExport.Version

/-! # How to decompile

The settings of a decompiler are the version of C# to write and how much of each script to keep.
-/

namespace GameExport

/-- A version of C#; `auto` stands for the newest one that the compiler of an editor knows. -/
inductive LanguageVersion where
  | auto
  | cSharp4
  | cSharp7_3
  | cSharp8
  | cSharp9
  | cSharp10
  | latest
  deriving DecidableEq

namespace LanguageVersion

/-- The language versions by their names in a configuration. -/
def table : List (String × LanguageVersion) :=
  [("Auto", .auto), ("CSharp4", .cSharp4), ("CSharp7_3", .cSharp7_3), ("CSharp8", .cSharp8),
   ("CSharp9", .cSharp9), ("CSharp10", .cSharp10), ("Latest", .latest)]

def name : LanguageVersion → String
  | .auto => "Auto"
  | .cSharp4 => "CSharp4"
  | .cSharp7_3 => "CSharp7_3"
  | .cSharp8 => "CSharp8"
  | .cSharp9 => "CSharp9"
  | .cSharp10 => "CSharp10"
  | .latest => "Latest"

/-- The newest language version that the compiler of an editor knows. -/
def newestFor (v : Version) : LanguageVersion :=
  if v.isAtLeast 2022 2 then .cSharp9
  else if v.isAtLeast 2020 2 then .cSharp8
  else if v.isAtLeast 2018 3 then .cSharp7_3
  else .cSharp4

/-- The language version with `auto` decided for an editor. -/
def resolve (l : LanguageVersion) (v : Version) : LanguageVersion :=
  match l with
  | .auto => newestFor v
  | l => l

/-- The name that the decompiler's command line takes. What is not decided is the latest. -/
def optionName : LanguageVersion → String
  | .cSharp4 => "CSharp4"
  | .cSharp7_3 => "CSharp7_3"
  | .cSharp8 => "CSharp8_0"
  | .cSharp9 => "CSharp9_0"
  | .cSharp10 => "CSharp10_0"
  | .auto => "Latest"
  | .latest => "Latest"

def decode : Json.Decoder LanguageVersion := Json.Decoder.choice table

end LanguageVersion

/-- How much of each script is kept. -/
inductive ContentLevel where
  | stubs
  | declarations
  | bodies
  deriving DecidableEq

namespace ContentLevel

/-- The levels by their names in a configuration. -/
def table : List (String × ContentLevel) :=
  [("level0", .stubs), ("level1", .declarations), ("level2", .bodies)]

def name : ContentLevel → String
  | .stubs => "level0"
  | .declarations => "level1"
  | .bodies => "level2"

/-- Levels from the least to the most that is kept. -/
def rank : ContentLevel → Nat
  | .stubs => 0
  | .declarations => 1
  | .bodies => 2

def order (a b : ContentLevel) : Ordering := compare a.rank b.rank

def decode : Json.Decoder ContentLevel := Json.Decoder.choice table

end ContentLevel

/-- The settings of one call of a decompiler. -/
structure DecompileSettings where
  language : LanguageVersion := .auto
  level : ContentLevel := .bodies
  deriving DecidableEq

namespace DecompileSettings

open Json in
/-- Both settings may be left out. -/
def record : RecordDecoder DecompileSettings :=
  ((RecordDecoder.pure mk).optional "languageVersion" LanguageVersion.decode .auto).optional
    "contentLevel" ContentLevel.decode .bodies

def decode : Json.Decoder DecompileSettings := record.decode "struct ScriptConfig"

def toJson (s : DecompileSettings) : Json :=
  .obj [("languageVersion", .str s.language.name), ("contentLevel", .str s.level.name)]

end DecompileSettings

end GameExport
