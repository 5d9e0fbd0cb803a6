/-! # Words of a script

A word of a script is not yet a text: it holds parameters and outputs of other commands that are
put in when the command is run. Quoted parts stay together and mean themselves.
-/

namespace GameExport.Shell

/-- When a word takes the place of the value of a parameter: if there is no value, also for later
on, or if there is one. It can also be the reason for giving up if there is no value. -/
inductive Replacement where
  | ifMissing
  | ifMissingFromNowOn
  | ifPresent
  | complaint
  deriving DecidableEq

/-- What is done to the value of a parameter before it is put in. An empty value may count as
missing. Patterns and replacements are words of their own, kept as they are written. An edit that is
not known fails when it is to be done. -/
inductive Edit where
  | none
  | length
  | replace (kind : Replacement) (emptyToo : Bool) (word : List Char)
  | cutStart (longest : Bool) (pattern : List Char)
  | cutEnd (longest : Bool) (pattern : List Char)
  | unknown
  deriving DecidableEq

/-- A part of a word. A script within it may have a line on which it starts. -/
inductive Fragment where
  | text (s : List Char) (quoted : Bool)
  | parameter (name : String) (edit : Edit) (quoted : Bool)
  | output (script : List Char) (line : Option Nat) (quoted : Bool)
  | arithmetic (expression : List Char) (quoted : Bool)
  deriving DecidableEq

abbrev Word := List Fragment

/-- The text of a word in which nothing is quoted or put in. Only such words can be keywords. -/
def Word.plain? : Word → Option String
  | [.text s false] => some (String.ofList s)
  | _ => none

/-- A word that starts on the given line. -/
def Word.place (line : Nat) (w : Word) : Word :=
  w.map fun
    | .output script none quoted => .output script (some line) quoted
    | f => f

/-! ## Reading words -/

def isNameStart (c : Char) : Bool := c.isAlpha || c = '_'

def isNameChar (c : Char) : Bool := c.isAlphanum || c = '_'

/-- Parameters whose names are one character that is no letter. -/
def isSpecial (c : Char) : Bool := c.isDigit || c ∈ ['@', '*', '#', '?', '$', '!', '-']

/-- Why a word cannot be read, and how many of the lines up to the end of the text do not count. -/
structure WordFlaw where
  text : String
  uncounted : Nat := 0

namespace WordFlaw

def openQuote : WordFlaw := { text := "Unterminated quoted string" }

def openOutput : WordFlaw := { text := "end of file unexpected (expecting \")\")" }

def openBackquote : WordFlaw := { text := "EOF in backquote substitution" }

def openArithmetic : WordFlaw := { text := "Missing '))'" }

def openBrace : WordFlaw := { text := "Missing '\x7d'" }

end WordFlaw

/-- A text read in two parts: what has been read, and what follows it. -/
abbrev Parted := Except WordFlaw (List Char × List Char)

def Parted.push (c : Char) (p : Parted) : Parted := p.map fun r => (c :: r.1, r.2)

/-- What stands before the closing character, and what follows it. Brackets inside count unless a
quote is open, which some characters open. -/
def untilClosed (opening closing : Char) (quotes : List Char) (flaw : WordFlaw) :
    Option Char → Nat → List Char → Parted
  | none, _, [] => .error flaw
  | some _, _, [] => .error .openQuote
  | quote, depth, '\\' :: c :: s =>
      if quote = some '\'' then
        (untilClosed opening closing quotes flaw (if c = '\'' then none else quote) depth s).push c
          |>.push '\\'
      else (untilClosed opening closing quotes flaw quote depth s).push c |>.push '\\'
  | some q, depth, c :: s =>
      (untilClosed opening closing quotes flaw (if c = q then none else some q) depth s).push c
  | none, depth, c :: s =>
      if quotes.contains c then (untilClosed opening closing quotes flaw (some c) depth s).push c
      else if c = closing then
        match depth with
        | 0 => .ok ([], s)
        | d + 1 => (untilClosed opening closing quotes flaw none d s).push c
      else
        (untilClosed opening closing quotes flaw none (if c = opening then depth + 1 else depth)
          s).push c

/-- What stands before two closing brackets. A single one that closes nothing means itself. -/
def untilTwoClosed : Nat → List Char → Parted
  | _, [] => .error .openArithmetic
  | 0, ')' :: ')' :: s => .ok ([], s)
  | depth + 1, ')' :: s => (untilTwoClosed depth s).push ')'
  | depth, '(' :: s => (untilTwoClosed (depth + 1) s).push '('
  | depth, c :: s => (untilTwoClosed depth s).push c

/-- What stands before a backquote. A backslash protects some characters and is gone then. -/
def untilBackquote (quoted : Bool) : List Char → Parted
  | [] => .error .openBackquote
  | '\\' :: c :: s =>
      if c ∈ ['$', '\\', Char.ofNat 0x60] ∨ (quoted ∧ c = '\"') then
        (untilBackquote quoted s).push c
      else (untilBackquote quoted s).push c |>.push '\\'
  | c :: s => if c = Char.ofNat 0x60 then .ok ([], s) else (untilBackquote quoted s).push c

def Replacement.ofChar? (c : Char) : Option Replacement :=
  [('-', .ifMissing), ('=', .ifMissingFromNowOn), ('+', .ifPresent), ('?', .complaint)].lookup c

/-- What is written behind the name of a parameter in braces. -/
def editOf : List Char → Edit
  | [] => .none
  | ':' :: c :: word =>
      match Replacement.ofChar? c with
      | some kind => .replace kind true word
      | none => .unknown
  | '#' :: '#' :: pattern => .cutStart true pattern
  | '#' :: pattern => .cutStart false pattern
  | '%' :: '%' :: pattern => .cutEnd true pattern
  | '%' :: pattern => .cutEnd false pattern
  | c :: word =>
      match Replacement.ofChar? c with
      | some kind => .replace kind false word
      | none => .unknown

/-- The name at the start of a text. -/
def readName : List Char → Option (String × List Char)
  | [] => none
  | c :: s =>
      if isNameStart c then
        some (String.ofList (c :: s.takeWhile isNameChar), s.dropWhile isNameChar)
      else if isSpecial c then some (String.singleton c, s)
      else none

def braced (quoted : Bool) (inside : List Char) : Fragment :=
  match inside with
  | '#' :: c :: s =>
      match readName (c :: s) with
      | some (name, []) => .parameter name .length quoted
      | _ => .parameter "#" (editOf (c :: s)) quoted
  | _ =>
      match readName inside with
      | none => .parameter "" .unknown quoted
      | some (name, rest) =>
          let (name, rest) :=
            if name.toList.all Char.isDigit then
              (name ++ String.ofList (rest.takeWhile Char.isDigit), rest.dropWhile Char.isDigit)
            else (name, rest)
          .parameter name (editOf rest) quoted

/-- The flaw of a brace that is not closed. A line that ends behind the name does not count. -/
def braceFlaw (quoted : Bool) (s : List Char) : WordFlaw :=
  let flaw := if quoted then WordFlaw.openQuote else .openBrace
  match readName s with
  | some (_, '\n' :: _) => { flaw with uncounted := 1 }
  | _ => flaw

/-- What a dollar sign starts. One that starts nothing stands for itself. -/
def readDollar (quoted : Bool) (s : List Char) : Except WordFlaw (Fragment × List Char) :=
  match s with
  | '\x7b' :: r => do
      let quotes := if quoted then ['\"'] else ['\"', '\'']
      let (inside, rest) ← (untilClosed '\x7b' '\x7d' quotes .openBrace none 0 r).mapError
        fun _ => braceFlaw quoted r
      pure (braced quoted inside, rest)
  | '(' :: '(' :: r => do
      let (inside, rest) ← untilTwoClosed 0 r
      pure (.arithmetic inside quoted, rest)
  | '(' :: r => do
      let (inside, rest) ← untilClosed '(' ')' ['\"', '\''] .openOutput none 0 r
      pure (.output inside none quoted, rest)
  | _ =>
      match readName s with
      | some (name, rest) => .ok (.parameter name .none quoted, rest)
      | none => .ok (.text ['$'] quoted, s)

/-- Where double quotes count: in a string they end it, in a document they mean themselves, and
between braces in either of them they mean nothing. -/
inductive Quoting where
  | string
  | document
  | braces
  deriving DecidableEq

/-- Characters that a backslash protects. -/
def Quoting.protected (q : Quoting) : List Char :=
  ['$', '\\', Char.ofNat 0x60] ++ match q with
    | .string => ['\"']
    | .document => []
    | .braces => ['\"', '\x7d']

/-- Reads quoted text: a string to its closing quote, and all else to its end. -/
def readQuoted (q : Quoting) : Nat → List Char → Except WordFlaw (Word × List Char)
  | 0, _ => .error .openQuote
  | _ + 1, [] => if q = .string then .error .openQuote else .ok ([], [])
  | n + 1, '\\' :: c :: s => do
      let (w, rest) ← readQuoted q n s
      if c = '\n' then pure (w, rest)
      else if q.protected.contains c then pure (.text [c] true :: w, rest)
      else pure (.text ['\\', c] true :: w, rest)
  | n + 1, '$' :: s => do
      let (f, r) ← readDollar true s
      let (w, rest) ← readQuoted q n r
      pure (f :: w, rest)
  | n + 1, c :: s =>
      if c = '\"' ∧ q = .string then .ok ([], s)
      else if c = '\"' ∧ q = .braces then readQuoted q n s
      else if c = Char.ofNat 0x60 then do
        let (inside, r) ← untilBackquote (q = .string) s
        let (w, rest) ← readQuoted q n r
        pure (.output inside (some 1) true :: w, rest)
      else do
        let (w, rest) ← readQuoted q n s
        pure (.text [c] true :: w, rest)

def endsWord (c : Char) : Bool := c ∈ [' ', '\t', '\n', ';', '&', '|', '<', '>', '(', ')']

/-- Reads a word up to its end. Between braces nothing ends it. -/
def readWord (inBraces : Bool) : Nat → List Char → Except WordFlaw (Word × List Char)
  | 0, _ => .error .openQuote
  | _ + 1, [] => .ok ([], [])
  | n + 1, '\\' :: c :: s => do
      let (w, rest) ← readWord inBraces n s
      pure (if c = '\n' then w else .text [c] true :: w, rest)
  | n + 1, '\'' :: s => do
      let inside := s.takeWhile (· ≠ '\'')
      match s.dropWhile (· ≠ '\'') with
      | [] => throw .openQuote
      | _ :: r => do
          let (w, rest) ← readWord inBraces n r
          pure (.text inside true :: w, rest)
  | n + 1, '\"' :: s => do
      let (inside, r) ← readQuoted .string n s
      let (w, rest) ← readWord inBraces n r
      pure ((if inside = [] then [.text [] true] else inside) ++ w, rest)
  | n + 1, '$' :: s => do
      let (f, r) ← readDollar false s
      let (w, rest) ← readWord inBraces n r
      pure (f :: w, rest)
  | n + 1, c :: s =>
      if endsWord c ∧ !inBraces then .ok ([], c :: s)
      else if c = Char.ofNat 0x60 then do
        let (inside, r) ← untilBackquote false s
        let (w, rest) ← readWord inBraces n r
        pure (.output inside (some 1) false :: w, rest)
      else do
        let (w, rest) ← readWord inBraces n s
        match w with
        | .text t false :: w => pure (.text (c :: t) false :: w, rest)
        | w => pure (.text [c] false :: w, rest)

/-- A text as a word, as it is read in a document or between quoted braces. -/
def quotedWord (q : Quoting) (s : List Char) : Word :=
  match readQuoted q (s.length + 1) s with
  | .ok (w, _) => w
  | .error _ => [.text s true]

def wordOf (quoted : Bool) (s : List Char) : Word :=
  if quoted then quotedWord .braces s
  else match readWord true (s.length + 1) s with
    | .ok (w, _) => w
    | .error _ => [.text s false]

end GameExport.Shell
