import GameExport.Shell.Tool

/-! # Formatted output

A format is written with a directive replaced by each argument; it is written again as long as
there are arguments left. Missing arguments are empty or zero.
-/

namespace GameExport.Shell

open Text.Utf8 (encode)

/-- How the place of an argument is filled. -/
structure Directive where
  flags : List Char
  width : Nat
  precision : Option Nat
  conversion : Char

/-- What a format has written, the arguments that are left, whether output ends, and what was wrong
with numbers. -/
structure Printed where
  bytes : List UInt8 := []
  rest : List String := []
  isOver : Bool := false
  problems : List String := []
  status : UInt8 := 0

namespace Printed

/-- What is written first and what is written after it. -/
def after (bytes : List UInt8) (p : Printed) : Printed := { p with bytes := bytes ++ p.bytes }

def note (problem : Option String) (p : Printed) : Printed :=
  match problem with
  | some text => { p with problems := text :: p.problems, status := max 1 p.status }
  | none => p

end Printed

namespace Directive

def pad (d : Directive) (bytes : List UInt8) : List UInt8 :=
  let blanks := List.replicate (d.width - bytes.length) 32
  if d.flags.contains '-' then bytes ++ blanks else blanks ++ bytes

/-- A number with its sign. Zeros fill up the precision or else, if wanted, the width. -/
def number (d : Directive) (sign digits : List Char) : List UInt8 :=
  let wanted := match d.precision with
    | some n => n
    | none =>
        if d.flags.contains '0' && !d.flags.contains '-' then d.width - sign.length else 0
  let zeros := List.replicate (wanted - digits.length) '0'
  d.pad (encode (String.ofList (sign ++ zeros ++ digits)))

end Directive

/-- The value of a digit in some base of up to sixteen. -/
def digit? (base : Nat) (c : Char) : Option Nat :=
  ("0123456789abcdef".toList.take base).idxOf? c.toLower

/-- The value of the digits at the start of a text, what follows them, and whether there are any. -/
def readDigits (base : Nat) (s : List Char) : Nat × List Char × Bool :=
  let isDigit (c : Char) := (digit? base c).isSome
  (((s.takeWhile isDigit).filterMap (digit? base)).foldl (fun n d => base * n + d) 0,
    s.dropWhile isDigit, (s.head?.map isDigit).getD false)

/-- The numeral at the start of a text: in octal behind a zero, in sixteens behind `0x`. -/
def readNumeral (s : List Char) : Nat × List Char × Bool :=
  match s with
  | '0' :: 'x' :: c :: r =>
      if (digit? 16 c).isSome then readDigits 16 (c :: r) else (0, 'x' :: c :: r, true)
  | '0' :: _ => readDigits 8 s
  | _ => readDigits 10 s

/-- The number of an argument, and what is wrong with it. A quote in front of a character stands
for the number of that character. -/
def numberOf (arg : Option String) : Int × Option String :=
  match arg with
  | none => (0, none)
  | some arg =>
      match arg.toList with
      | '\'' :: c :: _ => (c.toNat, none)
      | '\"' :: c :: _ => (c.toNat, none)
      | s =>
          let s := s.dropWhile (· = ' ')
          let (negative, digits) := match s with
            | '-' :: r => (true, r)
            | '+' :: r => (false, r)
            | r => (false, r)
          let (n, rest, any) := readNumeral digits
          let value : Int := if negative then -n else n
          if !any then (0, some (arg ++ ": expected numeric value"))
          else if rest ≠ [] then (value, some (arg ++ ": not completely converted"))
          else (value, none)

/-- The digits of a number in some base. -/
def digitsIn (base : Nat) (upper : Bool) (n : Nat) : List Char :=
  let digits := Nat.toDigits base n
  if upper then digits.map Char.toUpper else digits

/-- Reads a directive behind its percent sign. A star takes the width from the arguments. -/
def readDirective (s : List Char) (args : List String) :
    Option (Directive × List Char × List String) :=
  let isFlag (c : Char) := c ∈ ['-', '+', ' ', '#', '0']
  let flags := s.takeWhile isFlag
  let s := s.dropWhile isFlag
  let (width, s, args) := match s with
    | '*' :: r => ((numberOf args.head?).1.toNat, r, args.tail)
    | r => (Nat.ofDigitChars 10 (r.takeWhile Char.isDigit) 0, r.dropWhile Char.isDigit, args)
  let (precision, s) := match s with
    | '.' :: r =>
        (some (Nat.ofDigitChars 10 (r.takeWhile Char.isDigit) 0), r.dropWhile Char.isDigit)
    | r => (none, r)
  match s with
  | c :: s => some (⟨flags, width, precision, c⟩, s, args)
  | [] => none

/-- The argument in its place: what is written, whether that ends all output, and what is wrong.
Some conversions are unknown. -/
def Directive.write (d : Directive) (arg : Option String) :
    Option (List UInt8 × Bool × Option String) :=
  let (n, problem) := numberOf arg
  let cut (bytes : List UInt8) := bytes.take (d.precision.getD bytes.length)
  let unsigned := if n < 0 then (UInt64.size + n).toNat else n.toNat
  match d.conversion with
  | 's' => some (d.pad (cut (encode (arg.getD ""))), false, none)
  | 'c' => some (d.pad ((encode (arg.getD "")).take 1), false, none)
  | 'b' =>
      let text := (arg.getD "").toList
      let (bytes, ends) := Tool.unescape true (text.length + 1) text
      some (d.pad (cut bytes), ends, none)
  | 'u' => some (d.number [] (digitsIn 10 false unsigned), false, problem)
  | 'o' => some (d.number [] (digitsIn 8 false unsigned), false, problem)
  | 'x' => some (d.number [] (digitsIn 16 false unsigned), false, problem)
  | 'X' => some (d.number [] (digitsIn 16 true unsigned), false, problem)
  | c =>
      if c = 'd' ∨ c = 'i' then
        let sign := if n < 0 then ['-'] else if d.flags.contains '+' then ['+'] else []
        some (d.number sign (digitsIn 10 false n.natAbs), false, problem)
      else none

def printOnce : Nat → List Char → List String → Printed
  | 0, _, rest => { rest }
  | _ + 1, [], rest => { rest }
  | n + 1, '%' :: '%' :: s, args => (printOnce n s args).after [37]
  | n + 1, '%' :: s, args =>
      match readDirective s args with
      | none => (printOnce n s args).after [37]
      | some (d, rest, args) =>
          match d.write args.head? with
          | none =>
              { isOver := true
                problems :=
                  ["%" ++ String.ofList (s.take (s.length - rest.length)) ++ ": invalid directive"]
                status := 2 }
          | some (bytes, true, _) => { bytes, isOver := true }
          | some (bytes, false, problem) => ((printOnce n rest args.tail).after bytes).note problem
  | n + 1, '\\' :: s, args =>
      let taken := match s with
        | c :: _ => if '0' ≤ c ∧ c ≤ '7' then s.length - (Tool.octal 3 s).2.length else 1
        | [] => 0
      let (bytes, _) := Tool.unescape false (taken + 2) ('\\' :: s.take taken)
      (printOnce n (s.drop taken) args).after bytes
  | n + 1, c :: s, args => (printOnce n s args).after (Tool.encodeChar c)

/-- Goes through a format until no arguments are left. -/
def printAll (format : List Char) : Nat → List String → Printed
  | 0, _ => {}
  | n + 1, args =>
      let first := printOnce (format.length + 1) format args
      if first.isOver || first.rest.isEmpty || first.rest.length = args.length then first
      else
        let more := printAll format n first.rest
        { more with
          bytes := first.bytes ++ more.bytes
          problems := first.problems ++ more.problems
          status := max first.status more.status }

def Tool.printf : Tool := fun name args _ tree =>
  let args := match args with
    | "--" :: rest => rest
    | _ => args
  match args with
  | [] => { tree, status := 2, complaints := encode (name ++ ": usage: printf format [arg ...]\n") }
  | format :: rest =>
      let printed := printAll format.toList (rest.length + 1) rest
      { tree
        status := printed.status
        output := printed.bytes
        complaints := printed.problems.flatMap fun p => encode (name ++ ": " ++ p ++ "\n") }

end GameExport.Shell
