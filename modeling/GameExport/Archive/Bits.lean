/-! # Reading bits

Compressed data are read bit by bit. Numbers stand with their lowest bit first. A reader never
gives back more bits than it was given, so reading on always comes to an end.
-/

namespace GameExport.Archive

/-- Why reading stopped: the data ended, or they are no data of this kind. -/
inductive Stop where
  | cut
  | malformed
  deriving DecidableEq

/-- The bits of bytes, the lowest bit of each byte first. -/
def bitsOf (bytes : List UInt8) : List Bool :=
  bytes.flatMap fun b => (List.range 8).map fun i => b.toNat.testBit i

/-- Reads a value from the start of some bits and gives back the others. -/
structure BitReader (α : Type) where
  read : List Bool → Except Stop (α × List Bool)
  length_le : ∀ {bits a rest}, read bits = .ok (a, rest) → rest.length ≤ bits.length

namespace BitReader

variable {α β : Type}

protected def pure (a : α) : BitReader α where
  read bits := .ok (a, bits)
  length_le h := by
    cases h
    exact Nat.le_refl _

protected def bind (r : BitReader α) (f : α → BitReader β) : BitReader β where
  read bits :=
    match r.read bits with
    | .ok (a, rest) => (f a).read rest
    | .error s => .error s
  length_le h := by
    split at h
    · next heq => exact Nat.le_trans ((f _).length_le h) (r.length_le heq)
    · cases h

instance : Monad BitReader where
  pure := BitReader.pure
  bind := BitReader.bind

def stop (s : Stop) : BitReader α where
  read _ := .error s
  length_le h := by cases h

def bit : BitReader Bool where
  read
    | [] => .error .cut
    | b :: rest => .ok (b, rest)
  length_le {bits a rest} h := by
    cases bits with
    | nil => cases h
    | cons b r =>
        cases h
        simp

/-- A number of so many bits, the lowest first. -/
def number : Nat → BitReader Nat
  | 0 => pure 0
  | n + 1 => do
      let b ← bit
      let rest ← number n
      pure (b.toNat + 2 * rest)

/-- Passes over the bits that are left of a byte. The bits that follow are whole bytes. -/
def align : BitReader Unit where
  read bits := .ok ((), bits.drop (bits.length % 8))
  length_le h := by
    cases h
    simp

end BitReader

end GameExport.Archive
