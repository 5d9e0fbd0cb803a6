import GameExport.Shell.Tool

/-! # Tools for files

Tools that show, make, copy, move and remove files and directories. Each goes on to the next
operand when one of them fails.
-/

namespace GameExport.Shell.Tool

open Text.Utf8 (encode)

def recursively : List (String × Char) := [("--recursive", 'r')]

/-! ## Showing -/

/-- Writes files one after the other, or its input. -/
def cat : Tool := withOptions (OptionTable.flags "u" []) 1 fun name a input tree =>
  let files := if a.operands.isEmpty then ["-"] else a.operands
  files.foldl (fun r file =>
    if file = "-" then { r with output := r.output ++ input }
    else if file = "/dev/null" then r
    else match Disk.read r.tree file with
      | .ok content => { r with output := r.output ++ content.toList }
      | .error e =>
          { r with
            status := 1
            complaints := r.complaints ++
              encode (name ++ ": " ++ file ++ ": " ++ e.description ++ "\n") })
    { tree }

/-- Lists the names in a directory in their order, one on a line. A name that starts with a dot
is listed only if that is wanted. -/
def ls : Tool := withOptions (OptionTable.flags "1aA" [("--all", 'a')]) 2 fun name a _ tree =>
  let path := a.operands.headD "."
  match tree.locate path with
  | .error e => complaint name ("cannot access " ++ quoted path ++ ": " ++ e.description) 2 tree
  | .ok l =>
      if tree.isDirectoryAt l then
        let names := (tree.below l).filterMap fun e =>
          match e.1 with
          | [inner] =>
              if a.has 'a' || a.has 'A' || !inner.startsWith "." then some inner else none
          | _ => none
        let dots := if a.has 'a' then [".", ".."] else []
        { tree, output := (dots ++ names.mergeSort (· ≤ ·)).flatMap fun n => encode (n ++ "\n") }
      else { tree, output := encode (path ++ "\n") }

/-! ## Making -/

def mkdir : Tool := withOptions (OptionTable.flags "pv" [("--parents", 'p')]) 1 fun name a _ tree =>
  if a.operands = [] then misuse name "missing operand" 1 tree
  else
    forEach (if a.has 'p' then Disk.makeDirectories else Disk.makeDirectory)
      (fun p e => name ++ ": cannot create directory " ++ quotedFinely p ++ ": " ++ e.description)
      a.operands tree

/-- Makes an empty file unless there is something. -/
def touchOne (p : Path) : Disk.Operation Unit := do
  if ← Action.ask fun t : FileTree => t.contains p then pure ()
  else Disk.write p ByteArray.empty

def touch : Tool := withOptions (OptionTable.flags "acm" []) 1 fun name a _ tree =>
  if a.operands = [] then misuse name "missing file operand" 1 tree
  else
    forEach (if a.has 'c' then fun _ => pure () else touchOne)
      (fun p e => name ++ ": cannot touch " ++ quoted p ++ ": " ++ e.description) a.operands tree

/-- Passes its input on, and writes it to files too. -/
def tee : Tool := withOptions (OptionTable.flags "a" [("--append", 'a')]) 1 fun name a input tree =>
  let writeOne (p : Path) : Disk.Operation Unit := do
    let before ← Action.ask fun t : FileTree =>
      match a.has 'a', Disk.read t p with
      | true, .ok content => content
      | _, _ => ByteArray.empty
    Disk.write p (before ++ ⟨input.toArray⟩)
  let r := forEach writeOne (fun p e => name ++ ": " ++ p ++ ": " ++ e.description) a.operands tree
  { r with output := input }

/-- A mode lets a file be run: in digits, one of them is odd; in letters, the last sign in front of
the letter for running is a plus. -/
def allowsRunning (mode : String) : Option Bool :=
  let s := mode.toList
  if s ≠ [] ∧ s.all Char.isDigit then some (s.any fun d => d.toNat % 2 = 1)
  else if s.contains 'x' then some (s.contains '+' || s.contains '=')
  else none

def chmod : Tool := withOptions (OptionTable.flags "Rrwx" recursively) 1 fun name a _ tree =>
  match a.operands with
  | [] => misuse name "missing operand" 1 tree
  | [mode] => misuse name ("missing operand after " ++ quotedFinely mode) 1 tree
  | mode :: paths =>
      let changeOne (p : Path) : Disk.Operation Unit := do
        if ← Action.ask fun t : FileTree => t.contains p then
          match allowsRunning mode with
          | some executable => Disk.setExecutable executable p
          | none => pure ()
        else throw .notFound
      forEach changeOne
        (fun p e => name ++ ": cannot access " ++ quoted p ++ ": " ++ e.description) paths tree

/-! ## Removing -/

/-- Removes a file, or a directory if that is wanted. What is missing may be passed over. -/
def remove (deep force : Bool) (p : Path) : Disk.Operation Unit := do
  let there ← Action.ask fun t : FileTree => t.contains p
  if !there then (if force then pure () else throw .notFound)
  else if ← Action.ask fun t : FileTree => t.isDirectory p then
    if deep then Disk.removeDirectory p else throw .isDirectory
  else Disk.removeFile p

/-- A path names the directory that it starts from or one around it. -/
def isDots (path : String) : Bool :=
  let last := (path.toList.reverse.dropWhile (· = '/')).takeWhile (· ≠ '/')
  last = ['.'] || last = ['.', '.']

def rm : Tool := withOptions (OptionTable.flags "rRfv" (("--force", 'f') :: recursively)) 1
  fun name a _ tree =>
    let deep := a.has 'r' || a.has 'R'
    if a.operands = [] ∧ !a.has 'f' then misuse name "missing operand" 1 tree
    else
      forEach (fun p => if deep && isDots p.text then throw .invalidArgument
          else remove deep (a.has 'f') p)
        (fun p e =>
          if deep && isDots p then
            name ++ ": refusing to remove '.' or '..' directory: skipping " ++ quoted p
          else name ++ ": cannot remove " ++ quoted p ++ ": " ++ e.description)
        a.operands tree

/-- Removes a directory in which there is nothing. -/
def removeIfEmpty (p : Path) : Disk.Operation Unit := do
  let l ← Disk.look (·.locate p)
  Disk.look (·.checkDirectory l)
  if ← Action.ask fun t : FileTree => (t.below l).isEmpty then Disk.removeDirectory p
  else throw .notEmpty

def rmdir : Tool := withOptions (OptionTable.flags "v" []) 1 fun name a _ tree =>
  if a.operands = [] then misuse name "missing operand" 1 tree
  else
    forEach removeIfEmpty
      (fun p e => name ++ ": failed to remove " ++ quoted p ++ ": " ++ e.description)
      a.operands tree

/-! ## Copying and moving -/

/-- The path to which something is copied: into a directory, or in place of a file. -/
def copyTarget (t : FileTree) (source target : String) : Path :=
  if t.isDirectory target then (Path.mk target).join ((Path.mk source).fileName.getD "")
  else target

def copyFile (content : ByteArray) (executable : Bool) (target : Path) : Disk.Operation Unit := do
  let isNew ← Action.ask fun t : FileTree => !t.contains target
  Disk.write target content
  if isNew && executable then Disk.setExecutable true target

/-- Copies what stands below a location, what is around first. -/
def copyBelow (l : Location) (target : Path) : Disk.Operation Unit := do
  let inner ← Action.ask fun t : FileTree => t.below l
  let inner := inner.mergeSort fun a b => a.1.length ≤ b.1.length
  Disk.makeDirectories target
  inner.forM fun e =>
    let path := target.join ⟨"/".intercalate e.1.reverse⟩
    match e.2 with
    | .directory => Disk.makeDirectories path
    | .file content executable => copyFile content executable path

def transfer (name : String) (moving deep : Bool) (source target : String) (tree : FileTree) :
    ToolResult :=
  let place := copyTarget tree source target
  let create (operation : Disk.Operation Unit) : ToolResult :=
    forEach (fun _ => do
        operation
        if moving then remove true true source)
      (fun p e =>
        if moving then name ++ ": cannot move " ++ quoted source ++ " to " ++ quoted p ++ ": " ++
          e.description
        else name ++ ": cannot create regular file " ++ quoted p ++ ": " ++ e.description)
      [place.text] tree
  match tree.locate source with
  | .error e => complaint name ("cannot stat " ++ quoted source ++ ": " ++ e.description) 1 tree
  | .ok l =>
      match tree.get? l with
      | some (.file content executable) => create (copyFile content executable place)
      | some .directory =>
          if deep then create (copyBelow l place)
          else complaint name ("-r not specified; omitting directory " ++ quoted source) 1 tree
      | none =>
          complaint name ("cannot stat " ++ quoted source ++ ": No such file or directory") 1 tree

/-- Copies or moves all operands but the last one to that one. -/
def transferAll (moving : Bool) (name : String) (a : Arguments) (tree : FileTree) : ToolResult :=
  let deep := moving || a.has 'r' || a.has 'R' || a.has 'a'
  match a.operands with
  | [] => misuse name "missing file operand" 1 tree
  | [source] =>
      misuse name ("missing destination file operand after " ++ quoted source) 1 tree
  | [source, target] => transfer name moving deep source target tree
  | operands =>
      let target := operands.getLastD ""
      if !tree.isDirectory target then
        complaint name ("target " ++ quoted target ++ ": No such file or directory") 1 tree
      else
        operands.dropLast.foldl (fun r source =>
          let one := transfer name moving deep source target r.tree
          { one with
            status := max r.status one.status
            complaints := r.complaints ++ one.complaints }) { tree }

def cp : Tool := withOptions (OptionTable.flags "rRafpv" (("--force", 'f') :: recursively)) 1
  fun name a _ tree => transferAll false name a tree

def mv : Tool := withOptions (OptionTable.flags "fv" [("--force", 'f')]) 1
  fun name a _ tree => transferAll true name a tree

end GameExport.Shell.Tool
