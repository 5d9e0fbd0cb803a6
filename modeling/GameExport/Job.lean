import GameExport.Descriptor
import GameExport.Failure

/-! # The state of an export

The stages of an export change files and take down the assemblies that they touch. Each stage has
a helper that works on the files and keeps a record of its own; a helper never sees the assemblies
taken down.
-/

namespace GameExport

/-- The files, the assemblies taken down so far, and the helper's own record. -/
structure Job (σ : Type) where
  tree : FileTree
  descriptors : DescriptorMap
  own : σ

/-- What a helper does: it sees the files and its own record. -/
abbrev Work (σ α : Type) := Action (FileTree × σ) Failure α

namespace Work

variable {σ α : Type}

/-- An operation on files, done by a helper. -/
def files (a : Disk.Operation α) : Work σ α :=
  (a.mapError .file).zoom Prod.fst fun t s => (t, s.2)

def note (f : σ → σ) : Work σ Unit := .of fun s => (.ok (), (s.1, f s.2))

end Work

namespace Job

variable {σ α : Type}

/-- An operation on the files of a job. -/
def files (a : Disk.Operation α) : Action (Job σ) Failure α :=
  (a.mapError .file).zoom tree fun t j => { j with tree := t }

def help (a : Work σ α) : Action (Job σ) Failure α :=
  a.zoom (fun j => (j.tree, j.own)) fun s j => { j with tree := s.1, own := s.2 }

/-- Takes down an assembly, unless it is taken down already. -/
def takeDown (name : String) (directory : Path) : Action (Job σ) Failure Unit :=
  .of fun j => (.ok (), { j with descriptors := (j.descriptors.tryAdd name directory).2 })

end Job

end GameExport
