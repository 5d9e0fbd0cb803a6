import GameExport.Archive.Bits

/-! # Codes of variable length

A code gives some symbols a word of bits each, and no word is the start of another. It is given by
the lengths of the words alone: shorter words come first, words of one length are in the order of
their symbols, and every word is the least one that is still free.
-/

namespace GameExport.Archive

/-- What a word may go on to: nothing, a symbol, or one more bit. -/
inductive Branch where
  | unused
  | symbol (n : Nat)
  | fork (zero one : Branch)

/-- A code whose words have at least one bit. -/
structure Code where
  zero : Branch
  one : Branch

namespace Branch

/-- The symbol that the next bits lead to. -/
def follow : Branch → List Bool → Except Stop (Nat × List Bool)
  | .unused, _ => .error .malformed
  | .symbol n, bits => .ok (n, bits)
  | .fork _ _, [] => .error .cut
  | .fork zero one, b :: bits => if b then one.follow bits else zero.follow bits

theorem length_follow_le {t : Branch} {bits rest : List Bool} {n : Nat}
    (h : t.follow bits = .ok (n, rest)) : rest.length ≤ bits.length := by
  induction t generalizing bits with
  | unused => cases h
  | symbol m =>
      cases h
      exact Nat.le_refl _
  | fork zero one ihz iho =>
      cases bits with
      | nil => cases h
      | cons b r =>
          unfold follow at h
          split at h
          · exact Nat.le_succ_of_le (iho h)
          · exact Nat.le_succ_of_le (ihz h)

/-- Places symbols in the order of their words below a branch that is reached by `depth` bits, and
gives back the symbols for which there is no room. -/
def fill : Nat → Nat → List (Nat × Nat) → Branch × List (Nat × Nat)
  | _, _, [] => (.unused, [])
  | 0, depth, (length, n) :: queue =>
      if length = depth then (.symbol n, queue) else (.unused, (length, n) :: queue)
  | below + 1, depth, (length, n) :: queue =>
      if length = depth then (.symbol n, queue)
      else
        let (zero, queue) := fill below (depth + 1) ((length, n) :: queue)
        let (one, queue) := fill below (depth + 1) queue
        (.fork zero one, queue)

end Branch

namespace Code

/-- Words have at most this many bits. -/
def maxLength : Nat := 15

/-- The symbols that have words, with the lengths, in the order of the words. -/
def queue (lengths : List Nat) : List (Nat × Nat) :=
  (List.range maxLength).flatMap fun l =>
    (lengths.zipIdx.filter fun x => x.1 = l + 1).map fun x => (x.1, x.2)

/-- The share of all words that words of the given lengths take, in units of the longest. -/
def share (lengths : List Nat) : Nat :=
  (lengths.filter (· ≠ 0)).foldr (fun l n => Nat.pow 2 (maxLength - l) + n) 0

/-- The words of the given lengths use up all words. -/
def isComplete (lengths : List Nat) : Bool := share lengths = Nat.pow 2 maxLength

/-- There is no word at all, or there is one word of one bit. -/
def isSparse (lengths : List Nat) : Bool := lengths.filter (· ≠ 0) ∈ [[], [1]]

/-- The code with the given lengths of words, zero for a symbol without a word. -/
def build (lengths : List Nat) : Code :=
  let (zero, rest) := Branch.fill (maxLength - 1) 1 (queue lengths)
  let (one, _) := Branch.fill (maxLength - 1) 1 rest
  ⟨zero, one⟩

/-- A code that uses up all words. -/
def ofCompleteLengths (lengths : List Nat) : Option Code :=
  if isComplete lengths then some (build lengths) else none

/-- A code that uses up all words unless it is sparse. -/
def ofLengths (lengths : List Nat) : Option Code :=
  if isComplete lengths || isSparse lengths then some (build lengths) else none

def read (c : Code) : List Bool → Except Stop (Nat × List Bool)
  | [] => .error .cut
  | b :: bits => (if b then c.one else c.zero).follow bits

theorem length_read_lt {c : Code} {bits rest : List Bool} {n : Nat}
    (h : c.read bits = .ok (n, rest)) : rest.length < bits.length := by
  cases bits with
  | nil => cases h
  | cons b r => exact Nat.lt_succ_of_le (Branch.length_follow_le h)

def symbol (c : Code) : BitReader Nat where
  read := c.read
  length_le h := Nat.le_of_lt (length_read_lt h)

end Code

end GameExport.Archive
