import GameExport.Archive.CodePage
import GameExport.Archive.ExtraField
import GameExport.Text.Utf8

/-! # The directory of an archive

The directory lists the entries of an archive, with their names, how their data are kept, and
where these start.
-/

namespace GameExport.Archive

/-- How the data of an entry are kept. -/
inductive Method where
  | stored
  | deflated
  | unknown (code : Nat)
  deriving DecidableEq

def Method.ofCode (n : Nat) : Method :=
  if n = 0 then .stored else if n = 8 then .deflated else .unknown n

/-- The method that only says that the data are locked. -/
def lockedMethod : Nat := 99

structure ArchiveEntry where
  name : String
  locked : Bool
  method : Method
  checksum : UInt32
  compressedSize : Nat
  headerStart : Nat
  deriving DecidableEq

/-- The signature of an entry of the directory. -/
def entrySignature : Nat := 0x02014B50

/-- The size of an entry without its name, its extra fields and its comment. -/
def entrySize : Nat := 46

/-- Reads an entry of the directory. Its places are moved by `shift`. The place behind it is given
back too. -/
def readEntry (file : ByteArray) (shift start : Nat) : Option (ArchiveEntry × Nat) := do
  if !hasSignature entrySignature file start then none
  let flags ← numberAt file (start + 8) 2
  let method ← numberAt file (start + 10) 2
  let checksum ← numberAt file (start + 16) 4
  let compressedSize ← numberAt file (start + 20) 4
  let uncompressedSize ← numberAt file (start + 24) 4
  let nameSize ← numberAt file (start + 28) 2
  let extraSize ← numberAt file (start + 30) 2
  let commentSize ← numberAt file (start + 32) 2
  let headerStart ← numberAt file (start + 42) 4
  let rawName ← slice file (start + entrySize) nameSize
  let extra ← slice file (start + entrySize + nameSize) extraSize
  let rawComment ← slice file (start + entrySize + nameSize + extraSize) commentSize
  let text (bytes : List UInt8) : String :=
    if flags.testBit 11 then String.ofList (Text.Utf8.decode bytes) else codePageText bytes
  let k ← Known.afterFields
    { uncompressedSize, compressedSize, headerStart, rawName, method,
      name := text rawName, comment := (text rawComment).toUTF8.toList, isLocked := false } extra
  if k.method = lockedMethod ∧ !k.isLocked then none
  pure (⟨k.name, flags.testBit 0 || k.isLocked, .ofCode k.method, checksum.toUInt32,
    k.compressedSize, k.headerStart + shift⟩,
    start + entrySize + nameSize + extraSize + commentSize)

/-- Reads so many entries. The data of every entry have to start before the directory. -/
def readEntries (file : ByteArray) (shift directoryStart : Nat) :
    Nat → Nat → Option (List ArchiveEntry)
  | 0, _ => some []
  | n + 1, start => do
      let (entry, next) ← readEntry file shift start
      if directoryStart ≤ entry.headerStart then none
      let rest ← readEntries file shift directoryStart n next
      pure (entry :: rest)

/-- Entries under different names: of entries with one name the first place counts and the last
content. -/
def distinct (entries : List ArchiveEntry) : List ArchiveEntry :=
  entries.foldl (fun found e =>
    if found.any (·.name = e.name) then found.map fun f => if f.name = e.name then e else f
    else found ++ [e]) []

end GameExport.Archive
