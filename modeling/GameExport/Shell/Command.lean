import GameExport.Shell.Token

/-! # Commands of a script

Commands are put together from calls of tools. A script is read line by line: a flaw does not keep
the lines in front of it from being run, and nothing behind it is read.
-/

namespace GameExport.Shell

/-- A stream of a command, and where it leads. -/
structure Redirect where
  stream : Nat
  kind : RedirectKind
  target : Word
  deriving DecidableEq

/-- The call of a tool or a function, with assignments in front and redirections anywhere. -/
structure Call where
  assignments : List (String × Word) := []
  words : List Word := []
  redirects : List Redirect := []
  deriving DecidableEq

/-- A command. Those that put in values have the line on which they start. -/
inductive Command where
  | call (line : Nat) (c : Call)
  | pipe (first second : Command)
  | negate (c : Command)
  | both (first second : Command)
  | either (first second : Command)
  | sequence (first second : Command)
  | choose (test yes no : Command)
  | loop (untilTrue : Bool) (test body : Command)
  | each (line : Nat) (name : String) (words : List Word) (body : Command)
  | select (line : Nat) (subject : Word) (arms : List (List Word × Command))
  | apart (c : Command)
  | define (name : String) (body : Command)
  | redirected (line : Nat) (c : Command) (redirects : List Redirect)
  | flawed (line : Nat) (text : String)

namespace Command

def nothing : Command := .call 0 {}

def ofList : List Command → Command
  | [] => nothing
  | [c] => c
  | c :: cs => .sequence c (ofList cs)

/-- A command that is not waited for: its status does not count. -/
def behind (c : Command) : Command := .either (.apart c) nothing

/-! ## Flaws -/

/-- The reading of a part of a script. -/
abbrev Reading := Except Flaw

/-- The flaw at the next token, which is spoken of by the given name. -/
def flawAt (nameOf : Token → String) (rest : String) : Tokens → Flaw
  | [] => ⟨0, ""⟩
  | (line, .broken text) :: _ => ⟨line, text⟩
  | (line, t) :: _ => ⟨line, nameOf t ++ " unexpected" ++ rest⟩

/-- Nothing can be made of the next token. -/
def unexpected (ts : Tokens) : Flaw := flawAt Token.keywordName "" ts

/-- The next token should be another one. -/
def expecting (wanted : String) (ts : Tokens) : Flaw :=
  flawAt Token.keywordName (" (expecting " ++ wanted ++ ")") ts

/-- The next token should be a closing bracket, and no keywords are looked for. -/
def expectingClosing (ts : Tokens) : Flaw :=
  flawAt Token.name (" (expecting " ++ Token.name .closing ++ ")") ts

/-- Something that is no name stands in the place of one. -/
def badName (text : String) (ts : Tokens) : Flaw :=
  match ts with
  | (_, .broken _) :: _ => unexpected ts
  | (line, _) :: _ => ⟨line, text⟩
  | [] => unexpected ts

/-! ## Words and redirections -/

def skipNewlines : Tokens → Tokens
  | (_, .newline) :: ts => skipNewlines ts
  | ts => ts

def keyword (k : String) : Tokens → Reading Tokens
  | (line, t) :: ts =>
      if t.keyword? = some k then .ok ts
      else .error (expecting (Token.inQuotes k) ((line, t) :: ts))
  | [] => .error (unexpected [])

/-- Words that end the commands of a compound. -/
def closers : List String := ["then", "else", "elif", "fi", "do", "done", "esac", "\x7d"]

/-- A token that ends the commands of a compound. -/
def closes (t : Token) : Bool :=
  t = .closing || t = .armEnd || (t.keyword?.map closers.contains).getD false

def isName (s : String) : Bool :=
  (s.toList.head?.map isNameStart).getD false && s.toList.all isNameChar

/-- Names of commands whose failure ends the script. Functions cannot have these names. -/
def special : List String :=
  [".", ":", "break", "continue", "eval", "exec", "exit", "export", "readonly", "return", "set",
   "shift", "times", "trap", "unset"]

def assignment? (w : Word) : Option (String × Word) :=
  match w with
  | .text s false :: rest =>
      let name := s.takeWhile isNameChar
      match s.dropWhile isNameChar with
      | '=' :: value =>
          if (name.head?.map isNameStart).getD false then
            some (String.ofList name, if value = [] then rest else .text value false :: rest)
          else none
      | _ => none
  | _ => none

/-- The stream that a redirection is about unless it says so. -/
def defaultStream : RedirectKind → Nat
  | .read => 0
  | .document => 0
  | _ => 1

def redirect? : Tokens → Option (Reading (Redirect × Tokens))
  | (_, .redirect stream kind) :: ts =>
      some <| match ts with
        | (_, .word w) :: rest => .ok (⟨stream.getD (defaultStream kind), kind, w⟩, rest)
        | _ => .error (flawAt Token.name "" ts)
  | (_, .document stream w) :: ts => some (.ok (⟨stream.getD 0, .document, w⟩, ts))
  | _ => none

def readRedirects : Nat → Tokens → Reading (List Redirect × Tokens)
  | 0, ts => .ok ([], ts)
  | n + 1, ts =>
      match redirect? ts with
      | some reading => do
          let (r, rest) ← reading
          let (rs, rest) ← readRedirects n rest
          pure (r :: rs, rest)
      | none => .ok ([], ts)

def withRedirects (line : Nat) (c : Command) (ts : Tokens) : Reading (Command × Tokens) := do
  let (rs, rest) ← readRedirects ts.length ts
  pure (if rs = [] then c else .redirected line c rs, rest)

/-- Reads words up to a token that is none. -/
def readWords : Tokens → List Word × Tokens
  | (_, .word w) :: ts =>
      let (ws, rest) := readWords ts
      (w :: ws, rest)
  | ts => ([], ts)

def readPatterns : Tokens → Reading (List Word × Tokens)
  | (_, .word w) :: (_, .pipe) :: ts => do
      let (ws, rest) ← readPatterns ts
      pure (w :: ws, rest)
  | (_, .word w) :: (_, .closing) :: ts => .ok ([w], ts)
  | (_, .word _) :: ts => .error (expectingClosing ts)
  | (line, .ending) :: _ => .error (expectingClosing [(line, .ending)])
  | (line, .broken text) :: _ => .error ⟨line, text⟩
  | _ :: (_, .closing) :: ts => .ok ([[]], ts)
  | _ :: ts => .error (expectingClosing ts)
  | [] => .error (unexpected [])

/-! ## Compounds -/

mutual

/-- Reads commands up to something that cannot go on with them. They may end at once if some have
been read before. -/
def readList : Nat → Bool → Tokens → Reading (List Command × Tokens)
  | 0, _, ts => .error (unexpected ts)
  | n + 1, mayEnd, ts => do
      let ts := skipNewlines ts
      match ts with
      | [] => pure ([], [])
      | (_, t) :: _ =>
          if t = .ending ∨ (mayEnd ∧ closes t) then pure ([], ts)
          else
            let (c, rest) ← readAndOr n ts
            match rest with
            | (_, .newline) :: rest => goOn n c rest
            | (_, .semicolon) :: rest => goOn n c rest
            | (_, .ampersand) :: rest => goOn n (behind c) rest
            | _ => pure ([c], rest)
termination_by structural n => n

def goOn : Nat → Command → Tokens → Reading (List Command × Tokens)
  | 0, _, ts => .error (unexpected ts)
  | n + 1, c, ts => do
      let (cs, rest) ← readList n true ts
      pure (c :: cs, rest)
termination_by structural n => n

def readAndOr : Nat → Tokens → Reading (Command × Tokens)
  | 0, ts => .error (unexpected ts)
  | n + 1, ts => do
      let (c, rest) ← readPipeline n ts
      readAndOrRest n c rest
termination_by structural n => n

def readAndOrRest : Nat → Command → Tokens → Reading (Command × Tokens)
  | n + 1, c, (_, .both) :: ts => do
      let (d, rest) ← readPipeline n (skipNewlines ts)
      readAndOrRest n (.both c d) rest
  | n + 1, c, (_, .either) :: ts => do
      let (d, rest) ← readPipeline n (skipNewlines ts)
      readAndOrRest n (.either c d) rest
  | _, c, ts => .ok (c, ts)
termination_by structural n => n

def readPipeline : Nat → Tokens → Reading (Command × Tokens)
  | 0, ts => .error (unexpected ts)
  | n + 1, ts =>
      match keyword "!" ts with
      | .ok ts => do
          let (c, rest) ← readPipe n ts
          pure (.negate c, rest)
      | .error _ => readPipe n ts
termination_by structural n => n

def readPipe : Nat → Tokens → Reading (Command × Tokens)
  | 0, ts => .error (unexpected ts)
  | n + 1, ts => do
      let (c, rest) ← readCommand n ts
      match rest with
      | (_, .pipe) :: rest => do
          let (d, rest) ← readPipe n (skipNewlines rest)
          pure (.pipe c d, rest)
      | _ => pure (c, rest)
termination_by structural n => n

/-- Reads the rest of a choice behind its first body. -/
def readElse : Nat → Tokens → Reading (Command × Tokens)
  | 0, ts => .error (unexpected ts)
  | n + 1, ts =>
      match keyword "elif" ts, keyword "else" ts with
      | .ok rest, _ => readIf n rest
      | _, .ok rest => do
          let (no, rest) ← readList n false rest
          let rest ← keyword "fi" rest
          pure (ofList no, rest)
      | _, _ => do
          let rest ← keyword "fi" ts
          pure (nothing, rest)
termination_by structural n => n

def readIf : Nat → Tokens → Reading (Command × Tokens)
  | 0, ts => .error (unexpected ts)
  | n + 1, ts => do
      let (test, rest) ← readList n false ts
      let rest ← keyword "then" rest
      let (yes, rest) ← readList n false rest
      let (no, rest) ← readElse n rest
      pure (.choose (ofList test) (ofList yes) no, rest)
termination_by structural n => n

def readArms : Nat → Tokens → Reading (List (List Word × Command) × Tokens)
  | 0, ts => .error (unexpected ts)
  | n + 1, ts =>
      let ts := skipNewlines ts
      match keyword "esac" ts with
      | .ok rest => .ok ([], rest)
      | .error _ => do
          let ts := match ts with
            | (_, .opening) :: rest => rest
            | _ => ts
          let (patterns, rest) ← readPatterns ts
          let (body, rest) ← readList n true rest
          let arm := (patterns, ofList body)
          match skipNewlines rest with
          | (_, .armEnd) :: rest => do
              let (arms, rest) ← readArms n rest
              pure (arm :: arms, rest)
          | rest =>
              match keyword "esac" rest with
              | .ok rest => pure ([arm], rest)
              | .error _ => throw (expecting (Token.name .armEnd) rest)
termination_by structural n => n

def readBody : Nat → Tokens → Reading (Command × Tokens)
  | 0, ts => .error (unexpected ts)
  | n + 1, ts => do
      let rest ← keyword "do" ts
      let (body, rest) ← readList n false rest
      let rest ← keyword "done" rest
      pure (ofList body, rest)
termination_by structural n => n

def readLoop (untilTrue : Bool) : Nat → Tokens → Reading (Command × Tokens)
  | 0, ts => .error (unexpected ts)
  | n + 1, ts => do
      let (test, rest) ← readList n false ts
      let (body, rest) ← readBody n rest
      pure (.loop untilTrue (ofList test) body, rest)
termination_by structural n => n

/-- Reads a loop over words behind its keyword. Without words it is over the arguments. -/
def readFor (line : Nat) : Nat → Tokens → Reading (Command × Tokens)
  | n + 1, (last, .word w) :: ts => do
      match w.plain?.filter isName with
      | none => throw (badName "Bad for loop variable" ((last, .word w) :: ts))
      | some name =>
          match keyword "in" (skipNewlines ts) with
          | .ok rest => do
              let (words, rest) := readWords rest
              let rest ← match rest with
                | (_, .newline) :: rest => .ok rest
                | (_, .semicolon) :: rest => .ok rest
                | rest => .error (unexpected rest)
              let (body, rest) ← readBody n (skipNewlines rest)
              pure (.each line name words body, rest)
          | .error _ => do
              let ts := match skipNewlines ts with
                | (_, .semicolon) :: rest => rest
                | rest => rest
              let (body, rest) ← readBody n (skipNewlines ts)
              pure (.each line name [[.parameter "@" .none true]] body, rest)
  | _, ts => .error (badName "Bad for loop variable" ts)
termination_by structural n => n

def readCase (line : Nat) : Nat → Tokens → Reading (Command × Tokens)
  | n + 1, (_, .word subject) :: ts => do
      let rest ← keyword "in" (skipNewlines ts)
      let (arms, rest) ← readArms n rest
      pure (.select line subject arms, rest)
  | _, ts => .error (expecting "word" ts)
termination_by structural n => n

/-- Reads a compound behind its keyword. Other keywords start nothing. -/
def readKeyword (line : Nat) (k : String) : Nat → Tokens → Reading (Command × Tokens)
  | 0, ts => .error (unexpected ts)
  | n + 1, ts =>
      match k with
      | "if" => readIf n ts
      | "while" => readLoop false n ts
      | "until" => readLoop true n ts
      | "for" => readFor line n ts
      | "case" => readCase line n ts
      | "\x7b" => do
          let (cs, rest) ← readList n false ts
          let rest ← keyword "\x7d" rest
          pure (ofList cs, rest)
      | _ => .error ⟨line, Token.inQuotes k ++ " unexpected"⟩
termination_by structural n => n

def readCommand : Nat → Tokens → Reading (Command × Tokens)
  | n + 1, (line, .opening) :: ts => do
      let (cs, rest) ← readList n false ts
      match rest with
      | (_, .closing) :: rest => withRedirects line (.apart (ofList cs)) rest
      | _ => throw (expecting (Token.name .closing) rest)
  | n + 1, (line, t) :: ts =>
      match t.keyword? with
      | some k => do
          let (c, rest) ← readKeyword line k n ts
          withRedirects line c rest
      | none =>
          match t with
          | .word _ => readCall line n {} ((line, t) :: ts)
          | .redirect _ _ => readCall line n {} ((line, t) :: ts)
          | .document _ _ => readCall line n {} ((line, t) :: ts)
          | _ => .error (unexpected ((line, t) :: ts))
  | _, ts => .error (unexpected ts)
termination_by structural n => n

/-- Reads a call behind a part of it. One word and brackets are the definition of a function. -/
def readCall (line : Nat) : Nat → Call → Tokens → Reading (Command × Tokens)
  | 0, _, ts => .error (unexpected ts)
  | n + 1, c, ts =>
      match redirect? ts, ts with
      | some reading, _ => do
          let (r, rest) ← reading
          readCall line n { c with redirects := c.redirects ++ [r] } rest
      | none, (_, .word w) :: rest =>
          match if c.words = [] then assignment? w else none with
          | some a => readCall line n { c with assignments := c.assignments ++ [a] } rest
          | none => readCall line n { c with words := c.words ++ [w] } rest
      | none, (_, .opening) :: rest =>
          match c.words, c.assignments, c.redirects with
          | [name], [], [] => readFunction n name rest
          | _, _, _ => .ok (.call line c, ts)
      | none, _ => .ok (.call line c, ts)
termination_by structural n => n

/-- Reads the definition of a function behind the first bracket. -/
def readFunction : Nat → Word → Tokens → Reading (Command × Tokens)
  | n + 1, name, (line, .closing) :: ts =>
      match name.plain?.filter fun s => isName s && !special.contains s with
      | none => .error (badName "Bad function name" ((line, .closing) :: ts))
      | some name => do
          let (body, rest) ← readCommand n (skipNewlines ts)
          pure (.define name body, rest)
  | _, _, ts => .error (expectingClosing ts)
termination_by structural n => n

end

/-! ## Scripts -/

def readLine : Nat → Tokens → Reading (List Command × Tokens)
  | 0, ts => .error (unexpected ts)
  | n + 1, ts => do
      match ts with
      | [] => pure ([], [])
      | (_, .newline) :: rest => pure ([], rest)
      | (_, .ending) :: _ => pure ([], [])
      | _ =>
          let (c, rest) ← readAndOr n ts
          match rest with
          | (_, .semicolon) :: rest => do
              let (cs, rest) ← readLine n rest
              pure (c :: cs, rest)
          | (_, .ampersand) :: rest => do
              let (cs, rest) ← readLine n rest
              pure (behind c :: cs, rest)
          | (_, .newline) :: rest => pure ([c], rest)
          | (_, .ending) :: _ => pure ([c], [])
          | _ => throw (unexpected rest)

def readLines : Nat → Tokens → List Command
  | 0, _ => []
  | _ + 1, [] => []
  | n + 1, ts =>
      match readLine (12 * ts.length + 12) ts with
      | .ok (cs, rest) => cs ++ readLines n rest
      | .error flaw => [.flawed flaw.line flaw.text]

/-- The tokens of a script within a script, which ends at a closing bracket. -/
def inBrackets : Tokens → Tokens
  | [(line, .ending)] => [(line, .closing), (line, .ending)]
  | [] => []
  | t :: ts => t :: inBrackets ts

/-- The flaw of a script within a script. -/
def flawInside (ts : Tokens) : Option Flaw :=
  match readList (12 * ts.length + 12) true (inBrackets ts) with
  | .error flaw => some flaw
  | .ok (_, [(_, .closing), (_, .ending)]) => none
  | .ok (_, rest) => some (expecting (Token.name .closing) rest)

/-- The tokens of a script, which may hold other scripts to some depth. -/
def tokensOf : Nat → Nat → List Char → Tokens
  | 0, line, s => Token.ofScript (fun _ _ => none) line s
  | n + 1, line, s =>
      Token.ofScript (fun line w => w.findSome? fun
        | .output inner none _ => flawInside (tokensOf n line inner)
        | _ => none) line s

/-- Scripts are looked for in scripts to this depth. -/
def maxNesting : Nat := 4

/-- The command that a script spells which starts on the given line. -/
def ofScript (line : Nat) (s : List Char) : Command :=
  let ts := tokensOf maxNesting line s
  ofList (readLines (ts.length + 1) ts)

end Command

end GameExport.Shell
