/-! # Bytes as text

Bytes that need not be UTF-8 are shown as text by putting one replacement character for each
maximal part that is not a whole character: a part is broken off at the first byte that cannot
continue it, and that byte starts anew.
-/

namespace GameExport.Text.Utf8

/-- The character that stands for bytes that are no text. -/
def replacement : Char := '\uFFFD'

/-- A character of which some bytes are still to come: the bits read so far, the range in which
the next byte has to lie, and how many bytes come after that one. -/
structure Pending where
  bits : Nat
  low : UInt8
  high : UInt8
  after : Nat

/-- What the first byte of a character says, or the replacement if no character starts so. -/
def start (b : UInt8) : List Char × Option Pending :=
  let n := b.toNat
  if n < 0x80 then ([Char.ofNat n], none)
  else if n < 0xC2 then ([replacement], none)
  else if n < 0xE0 then ([], some ⟨n - 0xC0, 0x80, 0xBF, 0⟩)
  else if n = 0xE0 then ([], some ⟨0, 0xA0, 0xBF, 1⟩)
  else if n = 0xED then ([], some ⟨0xD, 0x80, 0x9F, 1⟩)
  else if n < 0xF0 then ([], some ⟨n - 0xE0, 0x80, 0xBF, 1⟩)
  else if n = 0xF0 then ([], some ⟨0, 0x90, 0xBF, 2⟩)
  else if n < 0xF4 then ([], some ⟨n - 0xF0, 0x80, 0xBF, 2⟩)
  else if n = 0xF4 then ([], some ⟨4, 0x80, 0x8F, 2⟩)
  else ([replacement], none)

/-- The characters that a byte completes, and what is pending after it. -/
def step : Option Pending → UInt8 → List Char × Option Pending
  | none, b => start b
  | some p, b =>
      if p.low ≤ b ∧ b ≤ p.high then
        let bits := p.bits * 64 + (b.toNat - 0x80)
        match p.after with
        | 0 => ([Char.ofNat bits], none)
        | n + 1 => ([], some ⟨bits, 0x80, 0xBF, n⟩)
      else
        (replacement :: (start b).1, (start b).2)

/-- The text of bytes that come after what is pending. -/
def decodeFrom : Option Pending → List UInt8 → List Char
  | none, [] => []
  | some _, [] => [replacement]
  | pending, b :: bs => (step pending b).1 ++ decodeFrom (step pending b).2 bs

/-- The text of bytes, with a replacement character for each maximal part that is no text. -/
def decode (bs : List UInt8) : List Char := decodeFrom none bs

def encode (s : String) : List UInt8 := s.toUTF8.toList

/-- The number of bytes that a text takes. -/
def size (s : List Char) : Nat := s.foldr (fun c n => c.utf8Size + n) 0

end GameExport.Text.Utf8
