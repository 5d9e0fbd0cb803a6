import GameExport.CommandLine.Run
import GameExport.Shell.Launch

/-! # The program

The program takes in the files below the working directory, those that its arguments name, and those
that the configuration and the manifest name in turn. It runs the command on them, and writes back
what has changed. All decisions are made by the command.
-/

namespace GameExport.Program

def locationOf (path : String) : Location :=
  ((path.splitOn "/").filter (· ≠ "")).reverse

def pathOf (l : Location) : String := "/" ++ "/".intercalate l.reverse

/-- Takes in an entry unless its place is taken. -/
def take (t : FileTree) (l : Location) (e : Entry) : FileTree :=
  match l with
  | [] => t
  | name :: parent =>
      if hparent : t.get? parent = some .directory then
        if hnew : t.get? (name :: parent) = none then
          t.put name parent e hparent (by simp [hnew])
        else t
      else t

/-- Takes in what stands at a location. Files are taken to be executable. -/
def loadEntry (t : FileTree) (l : Location) : IO FileTree := do
  let path := (← IO.currentDir) / pathOf l
  if (t.get? l).isSome then return t
  else if ← path.isDir then return take t l .directory
  else if ← path.pathExists then return take t l (.file (← IO.FS.readBinFile path) true)
  else return t

/-- Takes in what stands on the way to a location, the outermost first, and at the location. -/
def loadWay (t : FileTree) : Location → IO FileTree
  | [] => return t
  | name :: parent => do loadEntry (← loadWay t parent) (name :: parent)

/-- Takes in everything below a location that has been taken in. -/
partial def loadBelow (t : FileTree) (l : Location) : IO FileTree := do
  if t.get? l ≠ some .directory then return t
  let path := (← IO.currentDir) / pathOf l
  let mut tree := t
  for child in ← path.readDir do
    tree ← loadBelow (← loadEntry tree (child.fileName :: l)) (child.fileName :: l)
  return tree

/-- Takes in what a path names, with the directories that it passes. -/
def loadPath (t : FileTree) (p : Path) : IO FileTree := do
  if p.refusal.isSome then return t
  let mut tree := t
  let mut l := t.workingDirectory
  for c in p.steps do
    l := c.follow l
    tree ← loadWay tree l
  loadBelow tree l

/-! ## Paths that are named -/

def pathsOfArguments (i : CommandLine.Invocation) : List Path :=
  i.config.toList ++ i.workspace.toList ++
    match i.command with
    | .init directory => directory.toList
    | .stage inputs => inputs
    | .exportScripts manifest output _ => [manifest, output]

/-- The paths of a manifest. Its assemblies may be in directories among its inputs. -/
def pathsOfManifest (m : Manifest) : List Path :=
  m.inputs ++ m.assemblies ++ m.inputs.flatMap fun p => m.assemblies.map p.join

/-- The paths in files that the arguments name: the decompiler, and what is to be exported. -/
def pathsInFiles (t : FileTree) (i : CommandLine.Invocation) : List Path :=
  let decompiler : List Path :=
    match Config.load t (i.config.getD Config.fileName) with
    | .ok c => [c.decompilerCommand]
    | .error _ => []
  match i.command with
  | .exportScripts manifest _ _ =>
      match Manifest.load t manifest with
      | .ok m => decompiler ++ pathsOfManifest m
      | .error _ => decompiler
  | _ => []

/-- Takes in what a command line needs, besides the working directory. -/
def loadNamed (t : FileTree) (args : List String) : IO FileTree := do
  match CommandLine.Request.ofArguments args with
  | .run i =>
      let tree ← (pathsOfArguments i).foldlM loadPath t
      (pathsInFiles tree i).foldlM loadPath tree
  | _ => return t

/-! ## Writing back -/

/-- Writes back one entry of the new tree. -/
def store (before : FileTree) (l : Location) (e : Entry) : IO Unit := do
  match e with
  | .directory => if before.get? l ≠ some .directory then IO.FS.createDirAll (pathOf l)
  | .file content _ =>
      let known := match before.get? l with
        | some (.file old _) => old.data = content.data
        | _ => false
      if !known then IO.FS.writeBinFile (pathOf l) content

/-- Makes the files what the new tree says: first what is gone, then what is new, the outermost
first. -/
def storeAll (before after : FileTree) : IO Unit := do
  let gone := (before.entries.filter fun e => (after.get? e.1).isNone).mergeSort
    fun a b => b.1.length ≤ a.1.length
  for e in gone do
    match e.2 with
    | .directory => IO.FS.removeDir (pathOf e.1)
    | .file _ _ => IO.FS.removeFile (pathOf e.1)
  for e in after.entries.mergeSort fun a b => a.1.length ≤ b.1.length do
    store before e.1 e.2

/-- A number that depends on a seed and two counters in no simple way. -/
def scatter (seed k i : UInt64) : UInt64 :=
  let a := (seed + k * 0x9E3779B97F4A7C15 + i * 0xD1B54A32D192ED03)
  let b := (a ^^^ (a >>> 30)) * 0xBF58476D1CE4E5B9
  let c := (b ^^^ (b >>> 27)) * 0x94D049BB133111EB
  c ^^^ (c >>> 31)

def seedOf (bytes : ByteArray) : UInt64 := bytes.foldl (fun s b => s * 256 + b.toUInt64) 0

def namesOf (seed : UInt64) : Names :=
  ⟨fun k i => Fin.ofNat 57 (scatter seed k.toUInt64 i.toUInt64).toNat, 0⟩

def guidOf (seed : UInt64) (k : Nat) : Guid :=
  .ofRandom (BitVec.ofNat 64 (scatter seed k.toUInt64 0).toNat ++
    BitVec.ofNat 64 (scatter seed k.toUInt64 1).toNat)

def usage : String :=
  "Usage: assetstage [-c CONFIG] [-w WORKSPACE] [-v] <COMMAND>\n\n" ++
  "  init [-p DIRECTORY]\n" ++
  "  stage INPUT...\n" ++
  "  export -m MANIFEST -o OUTPUT [--no-meta]\n"

end GameExport.Program

open GameExport Program in
/-- Runs the command line on the files of the system. -/
def main (args : List String) : IO UInt32 := do
  let here := (← IO.currentDir).toString
  let home := (← IO.appDir).toString
  let start ← loadPath { workingDirectory := locationOf here } here
  let tree ← loadNamed (← loadPath start home) args
  let seed := seedOf (← IO.getRandomBytes 8)
  let e : CommandLine.Environment := ⟨.ok home, Shell.launch, guidOf (seed + 1)⟩
  let (answer, s) := CommandLine.run e args ⟨tree, namesOf seed⟩
  storeAll tree s.tree
  for line in answer.lines do
    IO.println line
  IO.eprint answer.complaint
  if answer.code = 2 then IO.eprint usage
  return answer.code.toNat.toUInt32
