import GameExport.Assembly
import GameExport.FileName
import GameExport.Path

/-! # Where a script goes

A script goes to `<Scripts|Plugins>/<Assembly>/<Name/Space>/<Class>.cs` below the assets
directory. Every part is a portable file name.
-/

namespace GameExport

/-- The folder and file of a script, relative to the assets directory. -/
structure ScriptTarget where
  folder : Path
  fileName : String
  deriving DecidableEq

namespace ScriptTarget

def relativePath (t : ScriptTarget) : Path := t.folder.join t.fileName

/-- The parts of a namespace that are not empty. -/
def namespaceParts (ns : String) : List String :=
  ((Text.split '.' ns.toList).filter (· ≠ [])).map String.ofList

def sourceExtension : String := "cs"

/-- The target of a class. The assembly may come with its extension. -/
def of (assembly ns className : String) : ScriptTarget :=
  let assembly := Assembly.baseName assembly
  let top : Path := (Path.mk (Assembly.folder assembly)).join (FileName.sanitize assembly)
  ⟨(namespaceParts ns).foldl (fun folder part => folder.join (FileName.sanitize part)) top,
    FileName.sanitize className ++ "." ++ sourceExtension⟩

end ScriptTarget

end GameExport
