import GameExport.Text.Blank

/-! # Editor versions

A version is written `2019.4.3f1`: major, minor and build number, then perhaps a release
letter with its number. Only the major number is required when a version is read; the text
written for a version always has three numbers.
-/

namespace GameExport

/-- A release letter with its number; the letter is one of ASCII. -/
structure Release where
  letter : Char
  number : UInt16
  isAlpha_letter : letter.isAlpha = true := by decide
  deriving DecidableEq

structure Version where
  major : UInt16
  minor : UInt16
  build : UInt16
  release : Option Release := none
  deriving DecidableEq

/-- A text that is no version. It is kept as it was given, blanks included. -/
structure InvalidVersion where
  text : String
  deriving DecidableEq

def InvalidVersion.message (e : InvalidVersion) : String :=
  "Invalid Unity version '" ++ e.text ++ "'"

namespace Version

/-! ## Reading -/

/-- One or more ASCII digits whose value fits sixteen bits. -/
def readDigits (ds : List Char) : Option UInt16 :=
  if ds ≠ [] ∧ ds.all Char.isDigit ∧ Nat.ofDigitChars 10 ds 0 < 65536 then
    some (Nat.ofDigitChars 10 ds 0).toUInt16
  else
    none

/-- Digits that may follow one plus sign. -/
def readNumber : List Char → Option UInt16
  | '+' :: ds => readDigits ds
  | ds => readDigits ds

/-- The text before the first point, and the text after it if there is a point. -/
def cutAtPoint (s : List Char) : List Char × Option (List Char) :=
  (s.takeWhile (· ≠ '.'),
    match s.dropWhile (· ≠ '.') with
    | [] => none
    | _ :: rest => some rest)

/-- The release letter and what follows it: nothing stands for the number zero. -/
def readRelease : List Char → Option (Option Release)
  | [] => some none
  | letter :: digits =>
      if h : letter.isAlpha = true then
        (if digits = [] then some 0 else readNumber digits).map fun number =>
          some ⟨letter, number, h⟩
      else
        none

/-- The version that a text without surrounding blanks spells. The build number has no sign. -/
def readTrimmed (s : List Char) : Option Version := do
  let (first, afterFirst) := cutAtPoint s
  let major ← readNumber first
  match afterFirst with
  | none => some ⟨major, 0, 0, none⟩
  | some r => do
      let (second, afterSecond) := cutAtPoint r
      let minor ← readNumber second
      match afterSecond with
      | none => some ⟨major, minor, 0, none⟩
      | some third => do
          let build ← readDigits (third.takeWhile Char.isDigit)
          let release ← readRelease (third.dropWhile Char.isDigit)
          some ⟨major, minor, build, release⟩

/-- Reads a version; blanks around it do not count. -/
def parse (text : String) : Except InvalidVersion Version :=
  match readTrimmed (Text.trim text.toList) with
  | some v => .ok v
  | none => .error ⟨text⟩

/-! ## Writing -/

/-- The decimal digits of a sixteen bit number. -/
def digits (n : UInt16) : List Char := Nat.toDigits 10 n.toNat

def writeRelease : Option Release → List Char
  | none => []
  | some r => r.letter :: digits r.number

/-- Three numbers with points between them, then the release if there is one. -/
def write (v : Version) : List Char :=
  digits v.major ++ '.' :: digits v.minor ++ '.' :: digits v.build ++ writeRelease v.release

def text (v : Version) : String := String.ofList v.write

/-! ## Order -/

/-- Alpha comes before beta, then the Chinese edition, then final, patch and experimental
releases. No letter and every other letter rank with final. -/
def releaseRank : Option Release → Nat
  | none => 3
  | some r =>
      match r.letter with
      | 'a' => 0
      | 'b' => 1
      | 'c' => 2
      | 'p' => 4
      | 'x' => 5
      | _ => 3

/-- The number of the release, zero without a release. -/
def releaseNumber (v : Version) : UInt16 := (v.release.map Release.number).getD 0

/-- Versions are ordered by their three numbers, then by rank and number of the release. Two
different versions may be of equal order. -/
def order (v w : Version) : Ordering :=
  ((((compare v.major w.major).then (compare v.minor w.minor)).then
    (compare v.build w.build)).then
      (compare (releaseRank v.release) (releaseRank w.release))).then
        (compare v.releaseNumber w.releaseNumber)

/-- The version is `major.minor` or newer. -/
def isAtLeast (v : Version) (major minor : UInt16) : Bool :=
  decide (major < v.major ∨ (major = v.major ∧ minor ≤ v.minor))

/-- Versions from oldest to newest; those of equal order stay in place. -/
def sort (vs : List Version) : List Version :=
  vs.mergeSort fun v w => v.order w != .gt

end Version

end GameExport
