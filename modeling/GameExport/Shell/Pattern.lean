/-! # Patterns

A pattern is matched against a whole text. A star stands for any text, a question mark for any
character and brackets for one of some characters. Quoted characters stand for themselves.
-/

namespace GameExport.Shell

inductive PatternItem where
  | char (c : Char)
  | anyChar
  | anyText
  | oneOf (negated : Bool) (ranges : List (Char × Char))
  deriving DecidableEq

abbrev Pattern := List PatternItem

namespace Pattern

def rangesOf : List Char → List (Char × Char)
  | a :: '-' :: b :: s => (a, b) :: rangesOf s
  | c :: s => (c, c) :: rangesOf s
  | [] => []

/-- The set that an opening bracket starts, and how many characters it takes. A closing bracket
that stands first belongs to the set. -/
def setOf (s : List Char) : Option (PatternItem × Nat) :=
  let (negated, body, skipped) := match s with
    | '!' :: r => (true, r, 1)
    | r => (false, r, 0)
  let (first, body) := match body with
    | ']' :: r => ([']'], r)
    | r => ([], r)
  let inside := first ++ body.takeWhile (· ≠ ']')
  match body.dropWhile (· ≠ ']') with
  | [] => none
  | _ => some (.oneOf negated (rangesOf inside), skipped + inside.length + 1)

/-- The pattern that characters spell, each with whether it is quoted. The count is of characters
that a set has taken already. -/
def ofChars : Nat → List (Char × Bool) → Pattern
  | _, [] => []
  | skip + 1, _ :: s => ofChars skip s
  | 0, (c, quoted) :: s =>
      if quoted then .char c :: ofChars 0 s
      else if c = '*' then .anyText :: ofChars 0 s
      else if c = '?' then .anyChar :: ofChars 0 s
      else if c = '[' then
        match setOf (s.map Prod.fst) with
        | some (item, taken) => item :: ofChars taken s
        | none => .char c :: ofChars 0 s
      else .char c :: ofChars 0 s

/-- One character is one that the item stands for. -/
def PatternItem.accepts (c : Char) : PatternItem → Bool
  | .char d => c = d
  | .anyChar => true
  | .anyText => true
  | .oneOf negated ranges => negated != ranges.any fun r => r.1 ≤ c && c ≤ r.2

mutual

def isMatch : Pattern → List Char → Bool
  | [], s => s.isEmpty
  | .anyText :: p, s => matchFrom p s
  | item :: p, c :: s => PatternItem.accepts c item && isMatch p s
  | _ :: _, [] => false
termination_by p s => (p.length, s.length)

/-- The pattern stands for some end of the text. -/
def matchFrom (p : Pattern) : List Char → Bool
  | [] => isMatch p []
  | c :: s => isMatch p (c :: s) || matchFrom p s
termination_by s => (p.length, s.length + 1)

end

/-- The parts into which a text can be cut: starts from the shortest to the longest. -/
def cuts (s : List Char) : List (List Char × List Char) :=
  (List.range (s.length + 1)).map fun n => (s.take n, s.drop n)

/-- The text without the shortest or longest start that the pattern stands for. -/
def cutStart (longest : Bool) (p : Pattern) (s : List Char) : List Char :=
  let found := (cuts s).filter fun c => isMatch p c.1
  ((if longest then found.getLast? else found.head?).map Prod.snd).getD s

/-- The text without the shortest or longest end that the pattern stands for. -/
def cutEnd (longest : Bool) (p : Pattern) (s : List Char) : List Char :=
  let found := (cuts s).filter fun c => isMatch p c.2
  ((if longest then found.head? else found.getLast?).map Prod.fst).getD s

end Pattern

end GameExport.Shell
