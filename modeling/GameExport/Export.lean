import GameExport.Decompile.Run
import GameExport.Definitions
import GameExport.Materialize

/-! # Exporting scripts

An export decompiles the assemblies, then gives the remaining scripts their files, then writes the
definitions of all assemblies that it touched. A stage that fails ends the export.
-/

namespace GameExport

/-- Why an export is refused or failed. -/
inductive ExportError where
  | singleAssetUnsupported
  | emptyOutputPath
  | failed (f : Failure)
  deriving DecidableEq

def ExportError.messages : ExportError → List String
  | .singleAssetUnsupported => ["Scripts can only be exported all at once"]
  | .emptyOutputPath => ["Assets directory path is empty"]
  | .failed f => f.messages

/-- What to export, and for which editor. -/
structure ExportRequest where
  assets : List Asset
  assemblies : List ManagedAssembly
  settings : DecompileSettings
  version : Version

/-- Totals of an export. -/
structure ExportSummary where
  decompiled : Nat
  scripts : ScriptReport
  descriptors : Nat
  definitions : Nat
  deriving DecidableEq

/-- The three helpers of an export. Without a metadata writer no metadata are written. -/
structure Exporter (δ μ ω : Type) where
  decompiler : Decompiler δ
  metadata : Option (MetadataWriter μ)
  definitions : DefinitionWriter ω

/-- The state of an export, with the record of each helper. -/
structure ExportState (δ μ ω : Type) where
  tree : FileTree
  descriptors : DescriptorMap := default
  decompiler : δ
  metadata : μ
  definitions : ω

namespace Exporter

variable {δ μ ω : Type}

/-- Only scripts are exported. -/
def handles (a : Asset) : Bool := a.script?.isSome

/-- Scripts depend on each other, so none is exported on its own. -/
def exportOne (_ : Asset) (_ : Path) : Except ExportError Unit := .error .singleAssetUnsupported

def decompile (e : Exporter δ μ ω) (r : ExportRequest) (root : Path) :
    Action (ExportState δ μ ω) Failure Nat :=
  (e.decompiler.run root r.settings r.assemblies).zoom
    (fun s => ⟨s.tree, s.descriptors, s.decompiler⟩)
    fun j s => { s with tree := j.tree, descriptors := j.descriptors, decompiler := j.own }

def giveFiles (e : Exporter δ μ ω) (r : ExportRequest) (root : Path) :
    Action (ExportState δ μ ω) Failure ScriptReport :=
  (materialize root e.metadata (Asset.scripts r.assets)).zoom
    (fun s => ⟨s.tree, s.descriptors, s.metadata⟩)
    fun j s => { s with tree := j.tree, descriptors := j.descriptors, metadata := j.own }

def define (e : Exporter δ μ ω) (r : ExportRequest) (m : DescriptorMap) :
    Action (ExportState δ μ ω) Failure Nat :=
  (e.definitions.emit (AssemblyDefinition.supportedBy r.version) m).zoom
    (fun s => (s.tree, s.definitions))
    fun w s => { s with tree := w.1, definitions := w.2 }

def stages (e : Exporter δ μ ω) (r : ExportRequest) (root : Path) :
    Action (ExportState δ μ ω) Failure ExportSummary := do
  let decompiled ← e.decompile r root
  let scripts ← e.giveFiles r root
  let descriptors ← Action.ask (·.descriptors)
  let definitions ← e.define r descriptors
  pure ⟨decompiled, scripts, descriptors.size, definitions⟩

def exportAll (e : Exporter δ μ ω) (r : ExportRequest) (root : Path) :
    Action (ExportState δ μ ω) ExportError ExportSummary :=
  if root.text = "" then throw .emptyOutputPath
  else (e.stages r root).mapError .failed

end Exporter

end GameExport
