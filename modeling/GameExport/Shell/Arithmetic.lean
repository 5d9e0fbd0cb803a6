/-! # Arithmetic in a script

Between double brackets a script computes with integers of 64 bits and the values of its variables,
which it can also set. Most operators bind in levels, those of one level from left to right. A
comparison is one if it holds and zero if not.
-/

namespace GameExport.Shell.Arithmetic

inductive Symbol where
  | number (n : Nat)
  | name (s : String)
  | sign (s : String)
  deriving DecidableEq

def signs : List String :=
  ["<<=", ">>=", "||", "&&", "==", "!=", "<=", ">=", "<<", ">>", "+=", "-=", "*=", "/=", "%=", "&=",
   "^=", "|="]

def isDigitOf (base : Nat) (c : Char) : Bool :=
  if base = 16 then c.isDigit || ('a' ≤ c.toLower && c.toLower ≤ 'f')
  else c.isDigit && c.toNat < 48 + base

def digitValue (c : Char) : Nat :=
  if c.isDigit then c.toNat - 48 else c.toLower.toNat - 87

/-- The digits at the start of a text as a number, and what follows them. A zero in front means that
the base is eight, and an `x` behind it that it is sixteen. -/
def readDigits (s : List Char) : Nat × List Char :=
  let (base, s) : Nat × List Char := match s with
    | '0' :: x :: d :: rest =>
        if (x = 'x' ∨ x = 'X') ∧ isDigitOf 16 d then (16, d :: rest) else (8, s)
    | '0' :: _ => (8, s)
    | _ => (10, s)
  ((s.takeWhile (isDigitOf base)).foldl (fun n c => base * n + digitValue c) 0,
    s.dropWhile (isDigitOf base))

/-- The largest number. -/
def largest : Nat := 0x7FFFFFFFFFFFFFFF

/-- Reads the symbols of an expression. Characters that mean nothing are signs too. -/
def symbols : Nat → List Char → List Symbol
  | 0, _ => []
  | _ + 1, [] => []
  | n + 1, c :: s =>
      if c = ' ' ∨ c = '\t' ∨ c = '\n' then symbols n s
      else if c.isDigit then
        let (k, rest) := readDigits (c :: s)
        .number (min k largest) :: symbols n rest
      else if c.isAlpha || c = '_' then
        let isNameChar (d : Char) := d.isAlphanum || d = '_'
        .name (String.ofList (c :: s.takeWhile isNameChar)) :: symbols n (s.dropWhile isNameChar)
      else match signs.find? fun sign => sign.toList.isPrefixOf (c :: s) with
        | some sign => .sign sign :: symbols n ((c :: s).drop sign.length)
        | none => .sign (String.singleton c) :: symbols n s

/-! ## Operators -/

/-- An integer of 64 bits. -/
def wrap (a : Int) : Int := a.bmod UInt64.size

def truth (b : Bool) : Int := if b then 1 else 0

def bits (a : Int) : Nat := (a % UInt64.size).toNat

/-- An operator of two operands. Some have no value for some operands. -/
abbrev Operator := Int → Int → Except String Int

/-- A division, which must not be by zero. -/
def division (f : Int → Int → Int) : Operator := fun a b =>
  if b = 0 then .error "division by zero" else .ok (wrap (f a b))

def operators : List (String × Operator) :=
  [("|", fun a b => .ok (wrap (bits a ||| bits b))),
   ("^", fun a b => .ok (wrap (bits a ^^^ bits b))),
   ("&", fun a b => .ok (wrap (bits a &&& bits b))),
   ("==", fun a b => .ok (truth (a = b))), ("!=", fun a b => .ok (truth (a ≠ b))),
   ("<=", fun a b => .ok (truth (a ≤ b))), (">=", fun a b => .ok (truth (b ≤ a))),
   ("<", fun a b => .ok (truth (a < b))), (">", fun a b => .ok (truth (b < a))),
   ("<<", fun a b => .ok (wrap (a * Nat.pow 2 (bits b % 64)))),
   (">>", fun a b => .ok (a / Nat.pow 2 (bits b % 64))),
   ("+", fun a b => .ok (wrap (a + b))), ("-", fun a b => .ok (wrap (a - b))),
   ("*", fun a b => .ok (wrap (a * b))), ("/", division Int.tdiv), ("%", division Int.tmod)]

/-- The levels in which operators bind, the loosest first. -/
def levels : List (List String) :=
  [["|"], ["^"], ["&"], ["==", "!="], ["<=", ">=", "<", ">"], ["<<", ">>"], ["+", "-"],
   ["*", "/", "%"]]

def signed : List (String × (Int → Int)) :=
  [("-", fun a => wrap (-a)), ("!", fun a => truth (a = 0)), ("~", fun a => -a - 1)]

/-! ## Expressions -/

inductive Expression where
  | number (n : Int)
  | name (x : String)
  | unary (f : Int → Int) (a : Expression)
  | binary (f : Operator) (a b : Expression)
  | both (a b : Expression)
  | either (a b : Expression)
  | choose (test yes no : Expression)
  | assign (x : String) (f : Option Operator) (a : Expression)

/-- The reading of a part of an expression, which may say what is missing. -/
abbrev Reading := Except String (Expression × List Symbol)

/-- Operators with which a variable can be set. -/
def assigning : List String := ["*", "/", "%", "+", "-", "<<", ">>", "&", "^", "|"]

/-- How a sign sets a variable: as it is, or with an operator. -/
def assignment? (sign : String) : Option (Option Operator) :=
  if sign = "=" then some none
  else
    ((assigning.find? fun o => o ++ "=" = sign).bind fun o => operators.lookup o).map some

mutual

/-- A number, a name, a signed value or an expression in brackets. -/
def readPrimary : Nat → List Symbol → Reading
  | _ + 1, .number k :: s => .ok (.number k, s)
  | _ + 1, .name x :: s => .ok (.name x, s)
  | n + 1, .sign o :: s =>
      if o = "(" then do
        let (a, rest) ← readAssignment n s
        match rest with
        | .sign ")" :: rest => pure (a, rest)
        | _ => throw "expecting ')'"
      else if o = "+" then readPrimary n s
      else match signed.lookup o with
        | none => throw "expecting primary"
        | some f => do
            let (a, rest) ← readPrimary n s
            pure (.unary f a, rest)
  | _, _ => .error "expecting primary"

/-- The operands of some levels and their operators. -/
def readOperands : Nat → List (List String) → List Symbol → Reading
  | 0, _, _ => .error "expecting primary"
  | n + 1, [], s => readPrimary n s
  | n + 1, level :: tighter, s => do
      let (a, rest) ← readOperands n tighter s
      readOperators n level tighter a rest

/-- The operators of a level behind an operand. -/
def readOperators : Nat → List String → List (List String) → Expression → List Symbol → Reading
  | n + 1, level, tighter, a, .sign o :: s =>
      match (operators.lookup o).filter fun _ => level.contains o with
      | none => .ok (a, .sign o :: s)
      | some f => do
          let (b, rest) ← readOperands n tighter s
          readOperators n level tighter (.binary f a b) rest
  | _, _, _, a, s => .ok (a, s)

/-- Conditions that are all to hold. -/
def readBoth : Nat → List Symbol → Reading
  | 0, _ => .error "expecting primary"
  | n + 1, s => do
      let (a, rest) ← readOperands n levels s
      match rest with
      | .sign "&&" :: rest => do
          let (b, rest) ← readBoth n rest
          pure (.both a b, rest)
      | _ => pure (a, rest)

/-- Conditions one of which is to hold. -/
def readEither : Nat → List Symbol → Reading
  | 0, _ => .error "expecting primary"
  | n + 1, s => do
      let (a, rest) ← readBoth n s
      match rest with
      | .sign "||" :: rest => do
          let (b, rest) ← readEither n rest
          pure (.either a b, rest)
      | _ => pure (a, rest)

/-- A choice between two values. -/
def readChoice : Nat → List Symbol → Reading
  | 0, _ => .error "expecting primary"
  | n + 1, s => do
      let (a, rest) ← readEither n s
      match rest with
      | .sign "?" :: rest => do
          let (b, rest) ← readAssignment n rest
          match rest with
          | .sign ":" :: rest => do
              let (c, rest) ← readChoice n rest
              pure (.choose a b c, rest)
          | _ => throw "expecting ':'"
      | _ => pure (a, rest)

/-- A value that a variable may be set to. -/
def readAssignment : Nat → List Symbol → Reading
  | 0, _ => .error "expecting primary"
  | n + 1, .name x :: .sign o :: s =>
      match assignment? o with
      | some f => do
          let (a, rest) ← readAssignment n s
          pure (.assign x f a, rest)
      | none => readChoice n (.name x :: .sign o :: s)
  | n + 1, s => readChoice n s

end

/-! ## Values -/

/-- The number that the value of a variable spells; nothing spells zero. -/
def number? (s : List Char) : Option Int :=
  let isBlank (c : Char) := c = ' ' || ('\t' ≤ c && c ≤ '\r')
  let s := s.dropWhile isBlank
  let (isNegative, digits) := match s with
    | '-' :: rest => (true, rest)
    | '+' :: rest => (false, rest)
    | _ => (false, s)
  if (digits.head?.map Char.isDigit).getD false then
    let (k, rest) := readDigits digits
    if rest.all isBlank ∧ k ≤ largest + truth isNegative then some (if isNegative then -k else k)
    else none
  else if s = [] then some 0
  else none

/-- Variables and what they have been set to, the latest first. -/
abbrev Assigned := List (String × Int)

/-- The value of a variable, which may have been set before. -/
def valueOf (value : String → String) (x : String) (set : Assigned) : Except String Int :=
  match set.lookup x, number? (value x).toList with
  | some v, _ => .ok v
  | none, some v => .ok v
  | none, none => .error ("Illegal number: " ++ value x)

/-- What an operator yields. What it says about its operands is put into a full complaint. -/
def applied (complain : String → String) (f : Operator) (a b : Int) : Except String Int :=
  (f a b).mapError complain

/-- The value of an expression, and what variables have been set to. -/
def Expression.value (complain : String → String) (value : String → String) :
    Expression → Assigned → Except String (Int × Assigned)
  | .number n, set => .ok (n, set)
  | .name x, set => do pure (← valueOf value x set, set)
  | .unary f a, set => do
      let (a, set) ← a.value complain value set
      pure (f a, set)
  | .binary f a b, set => do
      let (a, set) ← a.value complain value set
      let (b, set) ← b.value complain value set
      pure (← applied complain f a b, set)
  | .both a b, set => do
      let (a, set) ← a.value complain value set
      if a = 0 then pure (0, set)
      else
        let (b, set) ← b.value complain value set
        pure (truth (b ≠ 0), set)
  | .either a b, set => do
      let (a, set) ← a.value complain value set
      if a ≠ 0 then pure (1, set)
      else
        let (b, set) ← b.value complain value set
        pure (truth (b ≠ 0), set)
  | .choose test yes no, set => do
      let (a, set) ← test.value complain value set
      if a ≠ 0 then yes.value complain value set else no.value complain value set
  | .assign x f a, set => do
      let (a, set) ← a.value complain value set
      let v ← match f with
        | none => .ok a
        | some f => do applied complain f (← valueOf value x set) a
      pure (v, (x, v) :: set)

/-- The value of an expression, given the values of variables, and what variables have been set to;
or what is wrong with it. -/
def evaluate (value : String → String) (expression : List Char) :
    Except String (Int × Assigned) := do
  let complain (text : String) : String :=
    "arithmetic expression: " ++ text ++ ": \"" ++ String.ofList expression ++ "\""
  let s := symbols (expression.length + 1) expression
  let (e, rest) ← (readAssignment (16 * s.length + 16) s).mapError complain
  if rest = [] then e.value complain value [] else throw (complain "expecting EOF")

end GameExport.Shell.Arithmetic
