import GameExport.Assembly
import GameExport.FileName
import GameExport.Json.Decoder
import GameExport.Json.Value
import GameExport.Path

/-! # Managed assemblies

A managed assembly is a file that holds compiled scripts. It is named after the file unless it is
given a name of its own. Its sources go to a directory of that name.
-/

namespace GameExport

structure ManagedAssembly where
  name : String
  path : Path
  deriving DecidableEq

namespace ManagedAssembly

/-- The assembly of a file. A path without a file name leaves the name empty. -/
def ofPath (path : Path) : ManagedAssembly :=
  ⟨(path.fileName.map Assembly.baseName).getD "", path⟩

/-- The directory for the sources of an assembly, given without its extension. -/
def directory (root : Path) (name : String) : Path :=
  (root.join (Assembly.folder name)).join (FileName.sanitize name)

open Json in
def record : RecordDecoder ManagedAssembly :=
  ((RecordDecoder.pure fun name path => ⟨name, ⟨path⟩⟩).required "name" Decoder.string).required
    "path" Decoder.path

def decode : Json.Decoder ManagedAssembly := record.decode "struct ManagedAssembly"

def toJson (a : ManagedAssembly) : Json :=
  .obj [("name", .str a.name), ("path", .str a.path.text)]

end ManagedAssembly

end GameExport
