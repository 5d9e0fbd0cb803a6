import GameExport.Action
import GameExport.Archive.Bytes
import GameExport.Archive.Checksum

/-! # Extra fields of an entry

Behind the name of an entry stand extra fields, each with its kind and its length. Some of them
tell otherwise what the entry itself tells. A field is read from all bytes that follow, so one
whose length is wrong may run out of them: then what has been learned so far counts. A field that
cannot be meant so is refused, and with it the whole directory.
-/

namespace GameExport.Archive

/-- What is known of an entry while its extra fields are read. -/
structure Known where
  uncompressedSize : Nat
  compressedSize : Nat
  headerStart : Nat
  rawName : List UInt8
  name : String
  comment : List UInt8
  method : Nat
  isLocked : Bool
  deriving DecidableEq

/-- Why reading extra fields stops before their end. -/
inductive FieldFault where
  | cut
  | refused
  deriving DecidableEq

/-- What is known, and the bytes that are left. -/
structure FieldScan where
  known : Known
  data : List UInt8

abbrev FieldReader := Action FieldScan FieldFault

namespace FieldReader

def bytes (n : Nat) : FieldReader (List UInt8) :=
  .of fun s =>
    if s.data.length < n then (.error .cut, s)
    else (.ok (s.data.take n), { s with data := s.data.drop n })

/-- The number of the next so many bytes. -/
def number (n : Nat) : FieldReader Nat := littleEndian <$> bytes n

def skip (n : Nat) : FieldReader Unit := discard (bytes n)

def learn (f : Known → Known) : FieldReader Unit :=
  .of fun s => (.ok (), { s with known := f s.known })

def refuse : FieldReader Unit := throw .refused

/-! ## Kinds of fields -/

/-- The largest number of four bytes says that an extra field tells the size. -/
def unknownSize : Nat := 0xFFFFFFFF

/-- Learns a number of eight bytes if the field tells it, and gives back its size. -/
def widen (told : Bool) (set : Nat → Known → Known) : FieldReader Nat := do
  if told then
    let n ← number 8
    learn (set n)
    pure 8
  else pure 0

/-- Sizes and places of eight bytes. A field that is long enough for all of them tells them all,
any other those that the entry leaves open. -/
def sizes (length : Nat) : FieldReader Unit := do
  let k ← Action.ask FieldScan.known
  let told (n : Nat) : Bool := 24 ≤ length || n = unknownSize
  let a ← widen (told k.uncompressedSize) fun n k => { k with uncompressedSize := n }
  let b ← widen (told k.compressedSize) fun n k => { k with compressedSize := n }
  let c ← widen (told k.headerStart) fun n k => { k with headerStart := n }
  if length < a + b + c then refuse
  skip (length - (a + b + c))

/-- How many of the first eight bits are set. -/
def countBits (n : Nat) : Nat := ((List.range 8).filter n.testBit).length

/-- Times of a file, each of which has a bit that says that it is told. There are three. -/
def times (length : Nat) : FieldReader Unit := do
  let told ← number 1
  if length ≠ 5 ∧ length ≠ 1 + 4 * countBits told then refuse
  if 8 ≤ told then refuse
  skip (length - 1)

/-- Times of a file in one attribute of fixed size. -/
def exactTimes (length : Nat) : FieldReader Unit := do
  if length ≠ 32 then refuse
  skip 4
  if (← number 2) ≠ 1 then refuse
  if (← number 2) ≠ 24 then refuse
  skip 24

/-- A text in UTF-8 in place of other bytes. It is refused unless it was made for these. -/
def textInPlaceOf (old : List UInt8) (length : Nat) : FieldReader (List UInt8 × String) := do
  skip 1
  let sum ← number 4
  if length < 5 then refuse
  let new ← bytes (length - 5)
  if sum ≠ (checksum ⟨old.toArray⟩).toNat then refuse
  match String.fromUTF8? ⟨new.toArray⟩ with
  | some text => pure (new, text)
  | none => throw .refused

def comment (length : Nat) : FieldReader Unit := do
  let k ← Action.ask FieldScan.known
  let (comment, _) ← textInPlaceOf k.comment length
  learn fun k => { k with comment }

def name (length : Nat) : FieldReader Unit := do
  let k ← Action.ask FieldScan.known
  let (rawName, name) ← textInPlaceOf k.rawName length
  learn fun k => { k with rawName, name }

/-- The lock of the data, with the method that they have under it. -/
def lock (length : Nat) : FieldReader Unit := do
  if length ≠ 7 then refuse
  let version ← number 2
  let vendor ← number 2
  let strength ← number 1
  let method ← number 2
  if vendor ≠ 0x4541 then refuse
  if version ∉ [1, 2] then refuse
  if strength ∉ [1, 2, 3] then refuse
  learn fun k => { k with method, isLocked := true }

def kinds : List (Nat × (Nat → FieldReader Unit)) :=
  [(0x0001, sizes), (0x000A, exactTimes), (0x5455, times), (0x6375, comment), (0x7075, name),
   (0x9901, lock)]

def field : FieldReader Unit := do
  let kind ← number 2
  let length ← number 2
  (kinds.lookup kind).getD skip length

def fields : Nat → FieldReader Unit
  | 0 => pure ()
  | n + 1 => do
      if ← Action.ask fun s : FieldScan => s.data.isEmpty then pure ()
      else do
        field
        fields n

end FieldReader

/-- What is known after extra fields, unless one is refused. A field has at least one byte. -/
def Known.afterFields (k : Known) (extra : List UInt8) : Option Known :=
  match (FieldReader.fields extra.length).outcome ⟨k, extra⟩ with
  | (.error .refused, _) => none
  | (_, s) => some s.known

end GameExport.Archive
