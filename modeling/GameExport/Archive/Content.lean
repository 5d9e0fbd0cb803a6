import GameExport.Archive.EndRecord
import GameExport.Archive.Inflate
import GameExport.Disk.Error

/-! # The content of an entry

The data of an entry stand behind a header of their own. Whether they can be read at all is found
out before anything is written; whether they are intact only shows while they are expanded.
-/

namespace GameExport.Archive

/-- The signature of the header before the data of an entry. -/
def localSignature : Nat := 0x04034B50

/-- The size of that header without its name and its extra fields. -/
def localHeaderSize : Nat := 30

/-- Data as they stand in the archive, and how they are kept there. -/
structure Packed where
  data : List UInt8
  isDeflated : Bool
  checksum : UInt32

/-- Finds the data of an entry. Data that end with the archive are cut short there. -/
def findData (file : ByteArray) (e : ArchiveEntry) : Except Flaw Packed :=
  if e.locked then .error .locked
  else if !hasSignature localSignature file e.headerStart then .error .badLocalHeader
  else
    match numberAt file (e.headerStart + 26) 2, numberAt file (e.headerStart + 28) 2 with
    | some nameSize, some extraSize =>
        let start := e.headerStart + localHeaderSize + nameSize + extraSize
        let data := (file.extract start (start + e.compressedSize)).toList
        match e.method with
        | .stored => .ok ⟨data, false, e.checksum⟩
        | .deflated => .ok ⟨data, true, e.checksum⟩
        | .unknown _ => .error .unknownMethod
    | _, _ => .error .badLocalHeader

/-- The content as far as it can be had, and what is wrong with it. -/
def Packed.content (p : Packed) : ByteArray × Option FileError :=
  let (bytes, stop) := if p.isDeflated then Inflate.expand p.data else (⟨p.data.toArray⟩, none)
  if stop.isSome then (bytes, some .badCompression)
  else if Archive.checksum bytes ≠ p.checksum then (bytes, some .badChecksum)
  else (bytes, none)

end GameExport.Archive
