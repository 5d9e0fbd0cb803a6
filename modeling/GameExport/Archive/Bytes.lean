/-! # Numbers in bytes

An archive is a file of records. A record starts with a signature, and its numbers stand at fixed
places with their lowest byte first.
-/

namespace GameExport.Archive

/-- The number of bytes that stand with the lowest first. -/
def littleEndian : List UInt8 → Nat
  | [] => 0
  | b :: bs => b.toNat + 256 * littleEndian bs

def slice (file : ByteArray) (start size : Nat) : Option (List UInt8) :=
  if start + size ≤ file.size then some (file.extract start (start + size)).toList else none

def numberAt (file : ByteArray) (start size : Nat) : Option Nat :=
  (slice file start size).map littleEndian

def hasSignature (signature : Nat) (file : ByteArray) (start : Nat) : Bool :=
  numberAt file start 4 = some signature

/-- The places, out of so many from a place on, at which a signature stands. -/
def placesOf (signature : Nat) (file : ByteArray) (count start : Nat) : List Nat :=
  (List.range' start count).filter (hasSignature signature file)

end GameExport.Archive
