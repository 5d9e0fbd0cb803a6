import GameExport.Archive.Directory

/-! # The end of an archive

An archive ends with a record that tells where the directory is and how many entries it has. Data
may stand before the archive, so the places that it tells are measured from a start that has to be
found, and data may stand behind it, so the record is searched from the end. Where what a record
tells cannot be read, an earlier record is looked for.

Numbers that are too large for the record stand in a wide record before it, and a locator between
the two tells where that one starts.
-/

namespace GameExport.Archive

inductive Flaw where
  | noEnd
  | commentTooLong
  | directoryBehindEnd
  | noDirectory
  | locatorBehindRecord
  | severalDisks
  | otherDisk
  | lowWideSize
  | wideBehindLocator
  | wideLength
  | tooManyEntries
  | noWideEnd
  | locked
  | unknownMethod
  | badLocalHeader
  deriving DecidableEq

def Flaw.message : Flaw → String
  | .noEnd => "invalid Zip archive: Could not find EOCD"
  | .commentTooLong => "invalid Zip archive: Invalid EOCD comment length"
  | .directoryBehindEnd => "invalid Zip archive: Invalid CDFH offset in EOCD"
  | .noDirectory => "invalid Zip archive: No CDFH found"
  | .locatorBehindRecord => "invalid Zip archive: Invalid EOCD64 Locator CD offset"
  | .severalDisks => "invalid Zip archive: Multi-disk ZIP files are not supported"
  | .otherDisk => "invalid Zip archive: Invalid EOCD64: inconsistency with Locator data"
  | .lowWideSize => "invalid Zip archive: Low EOCD64 record size"
  | .wideBehindLocator => "invalid Zip archive: EOCD64 extends beyond EOCD64 locator"
  | .wideLength => "invalid Zip archive: Invalid EOCD64: inconsistent length"
  | .tooManyEntries => "invalid Zip archive: Invalid EOCD64: inconsistent number of files"
  | .noWideEnd => "invalid Zip archive: Could not find EOCD64"
  | .locked => "unsupported Zip archive: Password required to decrypt file"
  | .unknownMethod => "unsupported Zip archive: Compression method not supported"
  | .badLocalHeader => "invalid Zip archive: Invalid local file header"

/-! ## The end record -/

def endSignature : Nat := 0x06054B50

/-- The size of an end record without its comment. -/
def endSize : Nat := 22

structure EndRecord where
  start : Nat
  disk : Nat
  directoryDisk : Nat
  entriesHere : Nat
  entriesInAll : Nat
  directoryStart : Nat
  deriving DecidableEq

/-- Reads the end record at a place where its signature stands. -/
def readEnd (file : ByteArray) (start : Nat) : Except Flaw EndRecord :=
  let tell (offset size : Nat) := (numberAt file (start + offset) size).getD 0
  if file.size < start + endSize then .error .noEnd
  else if file.size < start + endSize + tell 20 2 then .error .commentTooLong
  else .ok ⟨start, tell 4 2, tell 6 2, tell 8 2, tell 10 2, tell 16 4⟩

/-- What a record leads to. Places of the archive are moved by `shift`, and a record that is not
sound leads nowhere. -/
structure Lead where
  disk : Nat
  directoryDisk : Nat
  entries : Nat
  directoryStart : Nat
  shift : Nat
  isSound : Bool
  deriving DecidableEq

/-- Where an end record leads to that tells everything itself. The first entry of the directory
shows how far the archive was moved. -/
def EndRecord.lead (file : ByteArray) (r : EndRecord) : Except Flaw Lead :=
  let lead (shift : Nat) : Lead :=
    ⟨r.disk, r.directoryDisk, r.entriesHere, r.directoryStart, shift, true⟩
  if r.entriesInAll = 0 then .ok (lead (r.start - r.directoryStart))
  else if r.start ≤ r.directoryStart then .error .directoryBehindEnd
  else
    let count := r.start - r.directoryStart - 3
    match (placesOf entrySignature file count r.directoryStart).head? with
    | some place => .ok (lead (place - r.directoryStart))
    | none => .error .noDirectory

/-! ## The wide record -/

def locatorSignature : Nat := 0x07064B50

def locatorSize : Nat := 20

def wideSignature : Nat := 0x06064B50

/-- The size that a wide record tells, which is without the number that tells it and what stands
before that, is at least this. -/
def wideSize : Nat := 44

/-- The end record may leave it to a wide record to tell some number. -/
def EndRecord.mayBeWide (r : EndRecord) : Bool :=
  r.entriesInAll = 0xFFFF || r.directoryStart = 0xFFFFFFFF

structure Locator where
  start : Nat
  directoryDisk : Nat
  wideStart : Nat
  disks : Nat
  deriving DecidableEq

/-- The locator that stands right before an end record, if there is one. -/
def EndRecord.locator? (file : ByteArray) (r : EndRecord) : Option Locator :=
  let start := r.start - locatorSize
  let tell (offset size : Nat) := (numberAt file (start + offset) size).getD 0
  if r.mayBeWide && locatorSize ≤ r.start && hasSignature locatorSignature file start then
    some ⟨start, tell 4 4, tell 8 8, tell 16 4⟩
  else none

/-- Where the wide record at a place leads to. It has to reach up to its locator. -/
def Locator.leadAt (file : ByteArray) (l : Locator) (place : Nat) : Except Flaw Lead :=
  let tell (offset size : Nat) := (numberAt file (place + offset) size).getD 0
  let size := tell 4 8
  let directoryDisk := tell 20 4
  let entries := tell 32 8
  let directoryStart := tell 48 8
  if size < wideSize then .error .lowWideSize
  else if l.start < place + size + 12 then .error .wideBehindLocator
  else if directoryDisk ≠ l.directoryDisk then .error .otherDisk
  else if place + size + 12 ≠ l.start then .error .wideLength
  else if place < entries * entrySize + directoryStart then .error .tooManyEntries
  else .ok ⟨tell 16 4, directoryDisk, entries, directoryStart, place - l.wideStart,
    tell 24 8 ≤ entries && tell 14 2 ≤ tell 12 2⟩

/-- Where the first wide record leads to that can be read. -/
def Locator.lead (file : ByteArray) (l : Locator) : Except Flaw Lead :=
  if l.start ≤ l.wideStart then .error .locatorBehindRecord
  else if 1 < l.disks then .error .severalDisks
  else
    let count := l.start - l.wideStart - 3
    let leads := (placesOf wideSignature file count l.wideStart).map (l.leadAt file)
    match leads.find? (·.isOk) with
    | some lead => lead
    | none => leads.getLast?.getD (.error .noWideEnd)

/-! ## The search -/

def Lead.entries? (file : ByteArray) (l : Lead) : Option (List ArchiveEntry) :=
  let start := l.directoryStart + l.shift
  if !l.isSound || l.disk ≠ l.directoryDisk then none
  else (readEntries file l.shift start l.entries start).map distinct

/-- Looks for an end record that starts before a place, from there to the start of the file. Of
the records that could not be followed, the flaw of the last one is told, unless a record was found
whose directory could not be read: then the search starts anew. -/
def search (file : ByteArray) : Nat → Option Flaw → Except Flaw (List ArchiveEntry)
  | 0, flaw => .error (flaw.getD .noEnd)
  | start + 1, flaw =>
      if !hasSignature endSignature file start then search file start flaw
      else match readEnd file start with
        | .error .noEnd => search file start flaw
        | .error e => search file start (some e)
        | .ok r =>
            let lead := match r.locator? file with
              | some l => l.lead file
              | none => r.lead file
            match lead with
            | .error e => search file start (some e)
            | .ok l =>
                match l.entries? file with
                | some entries => .ok entries
                | none => search file (start - 3) none
termination_by start => start

/-- The entries of an archive in the order of its directory. -/
def entries (file : ByteArray) : Except Flaw (List ArchiveEntry) :=
  search file (file.size - 3) none

end GameExport.Archive
