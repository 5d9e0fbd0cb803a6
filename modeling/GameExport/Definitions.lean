import GameExport.Assembly
import GameExport.AssemblyDefinition
import GameExport.Job

/-! # Writing assembly definitions

Every assembly taken down gets a definition file, except those that every project compiles anyway.
They are written in the order of their names.
-/

namespace GameExport

variable {σ : Type}

abbrev DefinitionWriter (σ : Type) := Descriptor → Work σ Unit

/-- Writes definition files and keeps their paths, in the order of writing. -/
def AssemblyDefinition.writer : DefinitionWriter (List Path) := fun d => do
  Action.during (.creating d.directory) (Work.files (Disk.makeDirectories d.directory))
  let path := AssemblyDefinition.path d
  let text := (AssemblyDefinition.ofName d.name).toJson.pretty
  Action.during (.writing path) (Work.files (Disk.writeText path text))
  Work.note (· ++ [path])

def DescriptorMap.defined (m : DescriptorMap) : List Descriptor :=
  m.entries.filter fun d => !Assembly.isPredefined d.name

namespace DefinitionWriter

/-- Writes definitions one after the other, and counts them. -/
def writeAll (w : DefinitionWriter σ) : List Descriptor → Work σ Nat
  | [] => pure 0
  | d :: ds => do
      w d
      let n ← w.writeAll ds
      pure (n + 1)

/-- Writes the definitions of an export if the editor knows such files, and counts them. -/
def emit (w : DefinitionWriter σ) (supported : Bool) (m : DescriptorMap) : Work σ Nat :=
  if supported then w.writeAll m.defined else pure 0

end DefinitionWriter

end GameExport
