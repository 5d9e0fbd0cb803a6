import GameExport.Shell.Word

/-! # Tokens of a script

A script is a row of words, signs between commands, and redirections. The lines of a document that
a command is given follow the line on which it is announced. The row ends with the script, or where
a word cannot be read.
-/

namespace GameExport.Shell

/-- What is done with a stream of a command. A document is given as it stands in the script. -/
inductive RedirectKind where
  | read
  | write
  | append
  | duplicate
  | document
  deriving DecidableEq

/-- What is wrong with a script, and the line on which it shows. -/
structure Flaw where
  line : Nat
  text : String

/-- A part of a script. The row of tokens may end with one that is broken. -/
inductive Token where
  | word (w : Word)
  | newline
  | semicolon
  | ampersand
  | armEnd
  | both
  | either
  | pipe
  | opening
  | closing
  | redirect (stream : Option Nat) (kind : RedirectKind)
  | document (stream : Option Nat) (w : Word)
  | ending
  | broken (text : String)
  deriving DecidableEq

/-- Tokens with the numbers of the lines on which they end. -/
abbrev Tokens := List (Nat × Token)

namespace Token

/-- Signs of one or two characters, the longer ones first. -/
def readSign : List Char → Option (Token × List Char)
  | ';' :: ';' :: s => some (.armEnd, s)
  | ';' :: s => some (.semicolon, s)
  | '&' :: '&' :: s => some (.both, s)
  | '&' :: s => some (.ampersand, s)
  | '|' :: '|' :: s => some (.either, s)
  | '|' :: s => some (.pipe, s)
  | '(' :: s => some (.opening, s)
  | ')' :: s => some (.closing, s)
  | '\n' :: s => some (.newline, s)
  | _ => none

def readRedirect (stream : Option Nat) : List Char → Option (Token × List Char)
  | '>' :: '>' :: s => some (.redirect stream .append, s)
  | '>' :: '&' :: s => some (.redirect stream .duplicate, s)
  | '>' :: '|' :: s => some (.redirect stream .write, s)
  | '>' :: s => some (.redirect stream .write, s)
  | '<' :: '&' :: s => some (.redirect (some (stream.getD 0)) .duplicate, s)
  | '<' :: s => some (.redirect stream .read, s)
  | _ => none

/-- The lines before the one that ends a document, and what follows that line. Without such a line
the document goes to the end of the text. -/
def documentLines (last : List Char) (dropTabs : Bool) :
    List (List Char) → List (List Char) × List (List Char)
  | [] => ([], [])
  | [[]] => ([], [])
  | line :: lines =>
      let line := if dropTabs then line.dropWhile (· = '\t') else line
      if line = last then ([], lines)
      else
        let (body, rest) := documentLines last dropTabs lines
        (line :: body, rest)

def splitLines (s : List Char) : List (List Char) :=
  s.foldr (fun c lines =>
    if c = '\n' then [] :: lines
    else match lines with
      | [] => [[c]]
      | l :: ls => (c :: l) :: ls) [[]]

def joinLines (lines : List (List Char)) : List Char := ['\n'].intercalate lines

/-- The text that a word spells without anything put in, and whether it is quoted. -/
def delimiterOf (w : Word) : List Char × Bool :=
  (w.flatMap fun
    | .text s _ => s
    | _ => [],
   w.any fun
    | .text _ quoted => quoted
    | _ => false)

/-- Reads a document whose announcement has been read up to its delimiter. Without a delimiter only
the sign has been read. -/
def readDocument (stream : Option Nat) (dropTabs : Bool) (s : List Char) :
    Except WordFlaw (Token × List Char) := do
  let s := s.dropWhile fun c => c = ' ' || c = '\t'
  let (w, rest) ← readWord false (s.length + 1) s
  if w = [] then pure (.redirect stream .document, rest)
  else
    let (last, quoted) := delimiterOf w
    let line := rest.takeWhile (· ≠ '\n')
    let below := rest.dropWhile (· ≠ '\n')
    let (body, after) := documentLines last dropTabs (splitLines below.tail)
    let text := body.flatMap (· ++ ['\n'])
    pure (.document stream (if quoted then [.text text true] else quotedWord .document text),
      line ++ '\n' :: joinLines after)

/-- Reads one token behind blanks. A digit in front of a redirection is the number of a stream. -/
def readOne (s : List Char) : Except WordFlaw (Token × List Char) :=
  let (stream, behind) : Option Nat × List Char := match s with
    | d :: c :: _ =>
        if d.isDigit ∧ (c = '<' ∨ c = '>') then (some (d.toNat - 48), s.tail) else (none, s)
    | _ => (none, s)
  match behind with
  | '<' :: '<' :: '-' :: r => readDocument stream true r
  | '<' :: '<' :: r => readDocument stream false r
  | _ =>
      match readRedirect stream behind, readSign s with
      | some r, _ => .ok r
      | none, some r => .ok r
      | none, none => (readWord false (s.length + 1) s).map fun r => (.word r.1, r.2)

/-- The number of line breaks in a text. -/
def breaks (s : List Char) : Nat := s.count '\n'

/-- Reads tokens. Comments go to the end of the line; the lines of documents count when the line on
which these are announced ends. A word may have a flaw although it can be read. -/
def read (flaw? : Nat → Word → Option Flaw) : Nat → Nat → Nat → List Char → Tokens
  | 0, line, _, _ => [(line, .ending)]
  | _ + 1, line, _, [] => [(line, .ending)]
  | n + 1, line, pending, '\\' :: '\n' :: s => read flaw? n (line + 1) pending s
  | n + 1, line, pending, c :: s =>
      if c = ' ' || c = '\t' then read flaw? n line pending s
      else if c = '#' then read flaw? n line pending (s.dropWhile (· ≠ '\n'))
      else match readOne (c :: s) with
        | .error flaw => [(line + breaks (c :: s) - flaw.uncounted, .broken flaw.text)]
        | .ok (t, rest) =>
            let passed := breaks (c :: s) - breaks rest
            match t with
            | .newline => (line + 1, t) :: read flaw? n (line + 1 + pending) 0 rest
            | .document _ _ => (line, t) :: read flaw? n line (pending + passed) rest
            | .word w =>
                match flaw? line w with
                | some flaw => [(flaw.line, .broken flaw.text)]
                | none =>
                    (line + passed, .word (w.place line)) ::
                      read flaw? n (line + passed) pending rest
            | _ => (line, t) :: read flaw? n line pending rest

/-- The tokens of a script that starts on the given line. -/
def ofScript (flaw? : Nat → Word → Option Flaw) (line : Nat) (s : List Char) : Tokens :=
  read flaw? (2 * s.length + 2) line 0 s

/-! ## Names -/

/-- Words that are keywords where a command may start. -/
def keywords : List String :=
  ["!", "\x7b", "\x7d", "case", "do", "done", "elif", "else", "esac", "fi", "for", "if", "in",
   "then", "until", "while"]

/-- A token that is unquoted and a keyword. -/
def keyword? : Token → Option String
  | .word w => w.plain?.filter keywords.contains
  | _ => none

def inQuotes (s : String) : String := "\"" ++ s ++ "\""

def name : Token → String
  | .word _ => "word"
  | .newline => "newline"
  | .semicolon => inQuotes ";"
  | .ampersand => inQuotes "&"
  | .armEnd => inQuotes ";;"
  | .both => inQuotes "&&"
  | .either => inQuotes "||"
  | .pipe => inQuotes "|"
  | .opening => inQuotes "("
  | .closing => inQuotes ")"
  | .redirect _ _ => "redirection"
  | .document _ _ => "redirection"
  | .ending => "end of file"
  | .broken text => text

/-- How a token is spoken of where it can be a keyword. -/
def keywordName (t : Token) : String := (t.keyword?.map inQuotes).getD t.name

end Token

end GameExport.Shell
