import GameExport.Text.Invisible

/-! # Quoted texts in messages

A message shows a text between quotation marks. Quotation marks, backslashes and characters that
would not show are escaped there, the last by their number in hexadecimal digits.
-/

namespace GameExport.Text

/-- Hexadecimal digits in lower case, without leading zeros. -/
def hexDigits (n : Nat) : List Char := Nat.toDigits 16 n

def quotedChar (c : Char) : List Char :=
  match c with
  | '\"' => ['\\', '\"']
  | '\\' => ['\\', '\\']
  | '\n' => ['\\', 'n']
  | '\r' => ['\\', 'r']
  | '\t' => ['\\', 't']
  | '\x00' => ['\\', '0']
  | _ =>
      if isInvisible c then ['\\', 'u', '\x7b'] ++ hexDigits c.toNat ++ ['\x7d']
      else [c]

def quoted (s : String) : String :=
  String.ofList ('\"' :: s.toList.flatMap quotedChar ++ ['\"'])

end GameExport.Text
