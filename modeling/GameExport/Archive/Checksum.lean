/-! # Checksums of archived files

The checksum is the remainder of the bytes, taken as a polynomial over two elements, by a fixed
polynomial of degree 32. Bits are in reverse order and complemented before and after.
-/

namespace GameExport.Archive

/-- The fixed polynomial without its leading term, in reverse order. -/
def checksumPolynomial : UInt32 := 0xEDB88320

/-- The remainder after one more bit that is zero. -/
def checksumShift (r : UInt32) : UInt32 :=
  if r &&& 1 = 1 then (r >>> 1) ^^^ checksumPolynomial else r >>> 1

def checksumStep (r : UInt32) (b : UInt8) : UInt32 :=
  Nat.repeat checksumShift 8 (r ^^^ b.toUInt32)

def checksum (bytes : ByteArray) : UInt32 :=
  bytes.foldl checksumStep 0xFFFFFFFF ^^^ 0xFFFFFFFF

end GameExport.Archive
