import GameExport.Archive.Code

/-! # Expanding compressed data

Compressed data are blocks. A block holds bytes as they are, or symbols of two codes: bytes, and
copies of what came before, told by length and distance. The codes of a block are fixed or are
described at its start.
-/

namespace GameExport.Archive.Inflate

/-! ## Codes -/

/-- Lengths of the words of the fixed code for bytes and copies. -/
def fixedLengths : List Nat :=
  List.replicate 144 8 ++ List.replicate 112 9 ++ List.replicate 24 7 ++ List.replicate 8 8

/-- Lengths of the words of the fixed code for distances. -/
def fixedDistanceLengths : List Nat := List.replicate 32 5

/-- The order in which the lengths of the code for lengths stand. -/
def lengthOrder : List Nat := [16, 17, 18, 0, 8, 7, 9, 6, 10, 5, 11, 4, 12, 3, 13, 2, 14, 1, 15]

structure Codes where
  literals : Code
  distances : Code

def codesOf (literals distances : List Nat) : BitReader Codes :=
  match Code.ofLengths literals, Code.ofLengths distances with
  | some l, some d => pure ⟨l, d⟩
  | _, _ => .stop .malformed

/-- The length repeated last, and how often it is to be repeated. -/
def repetition (before : List Nat) : Nat → BitReader (Nat × Nat)
  | 16 => do
      match before with
      | [] => .stop .malformed
      | last :: _ =>
          let n ← BitReader.number 2
          pure (last, n + 3)
  | 17 => do
      let n ← BitReader.number 3
      pure (0, n + 3)
  | 18 => do
      let n ← BitReader.number 7
      pure (0, n + 11)
  | length => pure (length, 1)

/-- Reads so many lengths; those read before are given last first. -/
def lengths (c : Code) (count : Nat) : Nat → List Nat → BitReader (List Nat)
  | 0, before => pure before.reverse
  | steps + 1, before =>
      if before.length = count then pure before.reverse
      else if count < before.length then .stop .malformed
      else do
        let s ← c.symbol
        let (length, n) ← repetition before s
        lengths c count steps (List.replicate n length ++ before)

def shortLengths : Nat → BitReader (List Nat)
  | 0 => pure []
  | n + 1 => do
      let l ← BitReader.number 3
      let ls ← shortLengths n
      pure (l :: ls)

def describedCodes : BitReader Codes := do
  let literals := (← BitReader.number 5) + 257
  let distances := (← BitReader.number 5) + 1
  let count := (← BitReader.number 4) + 4
  if 286 < literals ∨ 30 < distances then .stop .malformed
  else do
    let found ← shortLengths count
    let ordered := (List.range 19).map fun s =>
      ((lengthOrder.zip found).lookup s).getD 0
    match Code.ofCompleteLengths ordered with
    | none => .stop .malformed
    | some c => do
        let all ← lengths c (literals + distances) (literals + distances + 1) []
        if all.length = literals + distances then
          codesOf (all.take literals) (all.drop literals)
        else .stop .malformed

/-! ## Copies -/

/-- The shortest length that a symbol stands for, and how many bits follow it. -/
def lengthTable : List (Nat × Nat) :=
  [(3, 0), (4, 0), (5, 0), (6, 0), (7, 0), (8, 0), (9, 0), (10, 0), (11, 1), (13, 1), (15, 1),
   (17, 1), (19, 2), (23, 2), (27, 2), (31, 2), (35, 3), (43, 3), (51, 3), (59, 3), (67, 4),
   (83, 4), (99, 4), (115, 4), (131, 5), (163, 5), (195, 5), (227, 5), (258, 0)]

/-- The shortest distance that a symbol stands for, and how many bits follow it. -/
def distanceTable : List (Nat × Nat) :=
  [(1, 0), (2, 0), (3, 0), (4, 0), (5, 1), (7, 1), (9, 2), (13, 2), (17, 3), (25, 3), (33, 4),
   (49, 4), (65, 5), (97, 5), (129, 6), (193, 6), (257, 7), (385, 7), (513, 8), (769, 8),
   (1025, 9), (1537, 9), (2049, 10), (3073, 10), (4097, 11), (6145, 11), (8193, 12), (12289, 12),
   (16385, 13), (24577, 13)]

/-- The number that a symbol and the bits behind it stand for. -/
def tableEntry (table : List (Nat × Nat)) (n : Nat) : BitReader Nat :=
  match table[n]? with
  | none => .stop .malformed
  | some (least, extra) => do
      let more ← BitReader.number extra
      pure (least + more)

/-- What a block goes on with: a byte, the end of the block, or a copy. -/
inductive Token where
  | byte (b : UInt8)
  | finish
  | copy (length distance : Nat)
  deriving DecidableEq

def tokenOf (distances : Code) (n : Nat) : BitReader Token :=
  if n < 256 then pure (.byte n.toUInt8)
  else if n = 256 then pure .finish
  else do
    let length ← tableEntry lengthTable (n - 257)
    let d ← distances.symbol
    let distance ← tableEntry distanceTable d
    pure (.copy length distance)

def token (c : Codes) : BitReader Token := do
  let n ← c.literals.symbol
  tokenOf c.distances n

/-- A token takes bits. -/
theorem length_token_lt {c : Codes} {bits rest : List Bool} {t : Token}
    (h : (token c).read bits = .ok (t, rest)) : rest.length < bits.length := by
  simp only [token, bind, BitReader.bind] at h
  split at h
  · next heq =>
      exact Nat.lt_of_le_of_lt ((tokenOf c.distances _).length_le h) (Code.length_read_lt heq)
  · cases h

/-- Appends so many bytes from so far back. What lies before the start is zero. -/
def copyBack (distance : Nat) : Nat → ByteArray → ByteArray
  | 0, out => out
  | n + 1, out =>
      let b := if distance ≤ out.size then out.get! (out.size - distance) else 0
      copyBack distance n (out.push b)

/-! ## Blocks -/

/-- The output so far, and the bits that are left unless reading stopped. There are fewer than
`n`. -/
abbrev Progress (n : Nat) := ByteArray × Except Stop { rest : List Bool // rest.length < n }

/-- The same progress, seen from further back. -/
def Progress.weaken {m n : Nat} (h : m ≤ n) : Progress m → Progress n
  | (out, .error s) => (out, .error s)
  | (out, .ok ⟨rest, hrest⟩) => (out, .ok ⟨rest, Nat.lt_of_lt_of_le hrest h⟩)

def coded (c : Codes) (bits : List Bool) (out : ByteArray) : Progress bits.length :=
  match h : (token c).read bits with
  | .error s => (out, .error s)
  | .ok (.byte b, rest) =>
      (coded c rest (out.push b)).weaken (Nat.le_of_lt (length_token_lt h))
  | .ok (.finish, rest) => (out, .ok ⟨rest, length_token_lt h⟩)
  | .ok (.copy length distance, rest) =>
      (coded c rest (copyBack distance length out)).weaken (Nat.le_of_lt (length_token_lt h))
termination_by bits.length
decreasing_by all_goals exact length_token_lt h

def plainBytes : Nat → List Bool → ByteArray → ByteArray × Except Stop (List Bool)
  | 0, bits, out => (out, .ok bits)
  | n + 1, bits, out =>
      match (BitReader.number 8).read bits with
      | .error s => (out, .error s)
      | .ok (b, rest) => plainBytes n rest (out.push b.toUInt8)

theorem length_plainBytes_le {n : Nat} {bits rest : List Bool} {out out' : ByteArray}
    (h : plainBytes n bits out = (out', .ok rest)) : rest.length ≤ bits.length := by
  induction n generalizing bits out with
  | zero =>
      cases h
      exact Nat.le_refl _
  | succ n ih =>
      unfold plainBytes at h
      split at h
      · cases h
      · next hr => exact Nat.le_trans (ih h) ((BitReader.number 8).length_le hr)

/-- How many bytes stand in a plain block. The number is written twice, once complemented. -/
def plainSize : BitReader Nat := do
  BitReader.align
  let n ← BitReader.number 16
  let complement ← BitReader.number 16
  if n + complement = 0xFFFF then pure n else .stop .malformed

inductive BlockKind where
  | plain (size : Nat)
  | coded (codes : Codes)

/-- The start of a block: whether it is the last one, and how it is written. -/
def blockStart : BitReader (Bool × BlockKind) := do
  let last ← BitReader.bit
  match ← BitReader.number 2 with
  | 0 => do
      let size ← plainSize
      pure (last, .plain size)
  | 1 => do
      let codes ← codesOf fixedLengths fixedDistanceLengths
      pure (last, .coded codes)
  | 2 => do
      let codes ← describedCodes
      pure (last, .coded codes)
  | _ => .stop .malformed

theorem length_bit_lt {bits rest : List Bool} {b : Bool}
    (h : BitReader.bit.read bits = .ok (b, rest)) : rest.length < bits.length := by
  cases bits with
  | nil => cases h
  | cons c r =>
      cases h
      simp

/-- The start of a block takes bits. -/
theorem length_blockStart_lt {bits rest : List Bool} {r : Bool × BlockKind}
    (h : blockStart.read bits = .ok (r, rest)) : rest.length < bits.length := by
  unfold blockStart at h
  simp only [bind, BitReader.bind] at h
  split at h
  · next heq =>
      have hbit := length_bit_lt heq
      refine Nat.lt_of_le_of_lt ?_ hbit
      exact (BitReader.bind (BitReader.number 2) _).length_le h
  · cases h

def blocks (bits : List Bool) (out : ByteArray) : ByteArray × Option Stop :=
  match hb : blockStart.read bits with
  | .error s => (out, some s)
  | .ok ((last, .plain size), rest) =>
      match hp : plainBytes size rest out with
      | (out, .error s) => (out, some s)
      | (out, .ok more) =>
          have := Nat.lt_of_le_of_lt (length_plainBytes_le hp) (length_blockStart_lt hb)
          if last then (out, none) else blocks more out
  | .ok ((last, .coded codes), rest) =>
      match coded codes rest out with
      | (out, .error s) => (out, some s)
      | (out, .ok ⟨more, hmore⟩) =>
          have := Nat.lt_trans hmore (length_blockStart_lt hb)
          if last then (out, none) else blocks more out
termination_by bits.length

/-! ## Handing over -/

/-- Expanded bytes are kept in a window of this size, which is emptied when it is full and there is
more to be put into it. -/
def windowSize : Nat := 32768

/-- Data are taken in, and expanded bytes are handed over, in portions of this size. -/
def portionSize : Nat := 8192

/-- How many bytes all portions of malformed data give that do not show the fault yet. -/
def soundSize (data : List UInt8) : Nat :=
  let tries := (List.range (data.length / portionSize + 1)).map fun n =>
    blocks (bitsOf (data.take (n * portionSize))) ByteArray.empty
  let sound := tries.takeWhile fun r => r.2 ≠ some .malformed
  (sound.getLast?.map fun r => r.1.size).getD 0

/-- How many bytes of malformed data are handed over, of which so many could be expanded at all and
so many from the portions that are sound. What these give is handed over, and so is the window
whenever it is full; but a rest of the window that does not fill a portion waits for more. -/
def handedOver (sound size : Nat) : Nat :=
  let full := (size - 1) / windowSize * windowSize
  if full - sound < portionSize then sound else full

/-- Expands data, of which there may be none. Where they end too early, all that could be read is
handed over; where they are malformed, what was being made is lost. -/
def expand (data : List UInt8) : ByteArray × Option Stop :=
  if data.isEmpty then (ByteArray.empty, none)
  else match blocks (bitsOf data) ByteArray.empty with
    | (out, some .malformed) =>
        (out.extract 0 (handedOver (soundSize data) out.size), some .malformed)
    | r => r

end GameExport.Archive.Inflate
