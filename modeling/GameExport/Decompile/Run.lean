import GameExport.Decompile.ManagedAssembly
import GameExport.Decompile.Settings
import GameExport.Job

/-! # Decompiling assemblies

Every assembly that is more than a reference is decompiled into a directory of its own, in the
order of the list. The first failure ends the run.
-/

namespace GameExport

variable {σ : Type}

/-- Turns an assembly into sources in a directory that exists. -/
abbrev Decompiler (σ : Type) := ManagedAssembly → Path → DecompileSettings → Work σ Unit

namespace Decompiler

/-- Decompiles one assembly unless it is a reference, and counts the calls made for it. -/
def runOne (d : Decompiler σ) (root : Path) (settings : DecompileSettings) (a : ManagedAssembly) :
    Action (Job σ) Failure Nat :=
  let name := Assembly.baseName a.name
  let directory := ManagedAssembly.directory root name
  if Assembly.isReference name then pure 0
  else do
    (Job.files (Disk.makeDirectories directory)).during (.creating directory)
    (Job.help (d a directory settings)).during (.decompiling name)
    Job.takeDown name directory
    pure 1

/-- Decompiles assemblies, and counts the calls that were made. -/
def run (d : Decompiler σ) (root : Path) (settings : DecompileSettings) :
    List ManagedAssembly → Action (Job σ) Failure Nat
  | [] => pure 0
  | a :: as => do
      let n ← d.runOne root settings a
      let m ← d.run root settings as
      pure (n + m)

end Decompiler

end GameExport
