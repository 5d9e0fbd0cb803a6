import GameExport.Json.Node
import GameExport.Text.Utf8

/-! # Tokens

A text is cut into tokens from its start. The cutting stops behind the first token that breaks
off, so only the last token of a list may be broken.
-/

namespace GameExport.Json

/-- The four characters that JSON takes for blank. -/
def isSpace (c : Char) : Bool := c = ' ' || c = '\n' || c = '\t' || c = '\r'

inductive Token where
  | openArray
  | closeArray
  | openObject
  | closeObject
  | comma
  | colon
  | leaf (l : Leaf)
  | stray
  deriving DecidableEq

namespace Token

/-! ## Strings -/

def hexValue (c : Char) : Option Nat :=
  let n := c.toNat
  if 48 ≤ n ∧ n ≤ 57 then some (n - 48)
  else if 97 ≤ n ∧ n ≤ 102 then some (n - 87)
  else if 65 ≤ n ∧ n ≤ 70 then some (n - 55)
  else none

/-- A unit from its number of sixteen bits. -/
def unitOfCode (n : Nat) : TextUnit :=
  if 0xD800 ≤ n ∧ n < 0xE000 then .surrogate n else .char (Char.ofNat n)

/-- The four digits behind `\u`. With fewer than four bytes left the text has ended. -/
def readCode : List Char → Except Fault (TextUnit × List Char)
  | a :: b :: c :: d :: rest =>
      match hexValue a, hexValue b, hexValue c, hexValue d with
      | some w, some x, some y, some z =>
          .ok (unitOfCode (((w * 16 + x) * 16 + y) * 16 + z), rest)
      | _, _, _, _ => .error .malformed
  | short => .error (if Text.Utf8.size short < 4 then .ended else .malformed)

/-- What stands behind a backslash, and the text after it. -/
def readEscape : List Char → Except Fault (TextUnit × List Char)
  | [] => .error .ended
  | 'u' :: rest => readCode rest
  | '\"' :: rest => .ok (.char '\"', rest)
  | '\\' :: rest => .ok (.char '\\', rest)
  | '/' :: rest => .ok (.char '/', rest)
  | 'b' :: rest => .ok (.char '\x08', rest)
  | 'f' :: rest => .ok (.char '\x0c', rest)
  | 'n' :: rest => .ok (.char '\n', rest)
  | 'r' :: rest => .ok (.char '\r', rest)
  | 't' :: rest => .ok (.char '\t', rest)
  | _ => .error .malformed

theorem length_readCode {s rest : List Char} {u : TextUnit} (h : readCode s = .ok (u, rest)) :
    rest.length < s.length := by
  unfold readCode at h
  split at h
  · split at h
    · cases h
      simp only [List.length_cons]
      omega
    · cases h
  · cases h

theorem length_readEscape {s rest : List Char} {u : TextUnit} (h : readEscape s = .ok (u, rest)) :
    rest.length < s.length := by
  unfold readEscape at h
  split at h
  case h_2 => exact Nat.lt_succ_of_lt (length_readCode h)
  all_goals cases h
  all_goals simp

/-- The string behind an opening quotation mark, and the text after its closing one. Characters
below the space cannot stand in a string. -/
def readString (s : List Char) : Spelling × List Char :=
  match s with
  | [] => (⟨[], some .ended⟩, [])
  | c :: cs =>
      if c = '\"' then (⟨[], none⟩, cs)
      else if c = '\\' then
        match h : readEscape cs with
        | .error f => (⟨[], some f⟩, [])
        | .ok (u, rest) =>
            have := length_readEscape h
            let (t, after) := readString rest
            (⟨u :: t.units, t.fault⟩, after)
      else if c.toNat < 0x20 then (⟨[], some .malformed⟩, [])
      else
        let (t, after) := readString cs
        (⟨.char c :: t.units, t.fault⟩, after)
  termination_by s.length

theorem length_readString (s : List Char) : (readString s).2.length ≤ s.length := by
  fun_induction readString s <;> simp_all <;> omega

/-! ## Numbers and words -/

/-- The digits at the start of a text, and the text after them. -/
def readDigits (s : List Char) : List Char × List Char :=
  (s.takeWhile Char.isDigit, s.dropWhile Char.isDigit)

/-- At least one digit; otherwise the number is cut, at the end of the text or before it. -/
def readSomeDigits (s : List Char) : Except Leaf (List Char × List Char) :=
  match readDigits s with
  | ([], rest) => .error (.cutNumber rest.isEmpty)
  | (d :: ds, rest) => .ok (d :: ds, rest)

theorem length_readSomeDigits {s ds rest : List Char} (h : readSomeDigits s = .ok (ds, rest)) :
    rest.length < s.length := by
  unfold readSomeDigits at h
  split at h
  · cases h
  · next d ds' r heq =>
      cases h
      rw [readDigits, Prod.mk.injEq] at heq
      have happ := congrArg List.length
        (List.takeWhile_append_dropWhile (p := Char.isDigit) (l := s))
      rw [heq.1, heq.2, List.length_append, List.length_cons] at happ
      omega

/-- The whole part: a leading zero stands alone. -/
def readWhole (s : List Char) : Except Leaf (List Char × List Char) :=
  match s with
  | '0' :: rest =>
      match rest with
      | [] => .ok (['0'], [])
      | c :: cs => if c.isDigit then .error (.cutNumber false) else .ok (['0'], c :: cs)
  | _ => readSomeDigits s

theorem length_readWhole {s ds rest : List Char} (h : readWhole s = .ok (ds, rest)) :
    rest.length < s.length := by
  unfold readWhole at h
  split at h
  · split at h
    · cases h
      simp
    · split at h
      · cases h
      · cases h
        simp
  · exact length_readSomeDigits h

/-- The digits behind a point, if there is one. -/
def readFraction (s : List Char) : Except Leaf (List Char × List Char) :=
  match s with
  | '.' :: rest => readSomeDigits rest
  | _ => .ok ([], s)

theorem length_readFraction {s ds rest : List Char} (h : readFraction s = .ok (ds, rest)) :
    rest.length ≤ s.length := by
  unfold readFraction at h
  split at h
  · exact Nat.le_of_lt (Nat.lt_succ_of_lt (length_readSomeDigits h))
  · cases h
    exact Nat.le_refl _

/-- A sign, which says whether the exponent is negative. -/
def readSign : List Char → Bool × List Char
  | '+' :: rest => (false, rest)
  | '-' :: rest => (true, rest)
  | s => (false, s)

theorem length_readSign (s : List Char) : (readSign s).2.length ≤ s.length := by
  unfold readSign
  split <;> simp

/-- The exponent, if there is one: whether it is negative, and its digits. -/
def readExponent (s : List Char) : Except Leaf (Option (Bool × List Char) × List Char) :=
  match s with
  | [] => .ok (none, [])
  | c :: rest =>
      if c = 'e' ∨ c = 'E' then
        match readSomeDigits (readSign rest).2 with
        | .error l => .error l
        | .ok (ds, after) => .ok (some ((readSign rest).1, ds), after)
      else .ok (none, c :: rest)

theorem length_readExponent {s rest : List Char} {e : Option (Bool × List Char)}
    (h : readExponent s = .ok (e, rest)) : rest.length ≤ s.length := by
  unfold readExponent at h
  split at h
  · cases h
    exact Nat.le_refl _
  · next c r =>
      split at h
      · split at h
        · cases h
        · next hd =>
            cases h
            have := length_readSomeDigits hd
            have := length_readSign r
            simp only [List.length_cons]
            omega
      · cases h
        exact Nat.le_refl _

def readUnsigned (negative : Bool) (s : List Char) : Except Leaf (Leaf × List Char) := do
  let (whole, afterWhole) ← readWhole s
  let (fraction, afterFraction) ← readFraction afterWhole
  let (exponent, rest) ← readExponent afterFraction
  pure (.number ⟨negative, whole, fraction, exponent⟩, rest)

theorem length_readUnsigned {negative : Bool} {s rest : List Char} {l : Leaf}
    (h : readUnsigned negative s = .ok (l, rest)) : rest.length < s.length := by
  simp only [readUnsigned, bind, Except.bind] at h
  split at h
  · cases h
  next hw =>
    split at h
    · cases h
    next hf =>
      split at h
      · cases h
      next he =>
        cases h
        exact Nat.lt_of_le_of_lt (length_readExponent he)
          (Nat.lt_of_le_of_lt (length_readFraction hf) (length_readWhole hw))

/-- The number that starts with the given character. -/
def readNumber (c : Char) (cs : List Char) : Except Leaf (Leaf × List Char) :=
  if c = '-' then readUnsigned true cs else readUnsigned false (c :: cs)

theorem length_readNumber {c : Char} {cs rest : List Char} {l : Leaf}
    (h : readNumber c cs = .ok (l, rest)) : rest.length ≤ cs.length := by
  unfold readNumber at h
  split at h
  · exact Nat.le_of_lt (length_readUnsigned h)
  · exact Nat.le_of_lt_succ (length_readUnsigned h)

/-- The rest of a word of which the first letter is read. -/
def readWord (l : Leaf) : List Char → List Char → Except Leaf (Leaf × List Char)
  | [], rest => .ok (l, rest)
  | _ :: _, [] => .error (.cutWord .ended)
  | w :: ws, c :: cs => if w = c then readWord l ws cs else .error (.cutWord .malformed)

theorem length_readWord {l m : Leaf} {ws s rest : List Char}
    (h : readWord l ws s = .ok (m, rest)) : rest.length ≤ s.length := by
  induction ws generalizing s with
  | nil =>
      cases h
      exact Nat.le_refl _
  | cons w ws ih =>
      cases s with
      | nil => cases h
      | cons c cs =>
          unfold readWord at h
          split at h
          · exact Nat.le_succ_of_le (ih h)
          · cases h

/-! ## Texts -/

/-- The leaf that starts with a character which is none of the brackets and separators, and the
text after it. What breaks off comes alone, as the last token. -/
def readLeaf (c : Char) (cs : List Char) : Except Token (Leaf × List Char) :=
  if c = '\"' then
    if (readString cs).1.fault.isSome then .error (.leaf (.string (readString cs).1))
    else .ok (.string (readString cs).1, (readString cs).2)
  else if c = '-' ∨ c.isDigit then (readNumber c cs).mapError .leaf
  else if c = 'n' then (readWord .null ['u', 'l', 'l'] cs).mapError .leaf
  else if c = 't' then (readWord (.bool true) ['r', 'u', 'e'] cs).mapError .leaf
  else if c = 'f' then (readWord (.bool false) ['a', 'l', 's', 'e'] cs).mapError .leaf
  else .error .stray

private theorem ok_of_mapError_ok {α β γ : Type} {f : α → β} {x : Except α γ} {y : γ}
    (h : x.mapError f = .ok y) : x = .ok y := by
  cases x with
  | error e => cases h
  | ok a =>
      cases h
      rfl

theorem length_readLeaf {c : Char} {cs rest : List Char} {l : Leaf}
    (h : readLeaf c cs = .ok (l, rest)) : rest.length ≤ cs.length := by
  unfold readLeaf at h
  split at h
  · split at h
    · cases h
    · cases h
      exact length_readString cs
  · split at h
    · exact length_readNumber (ok_of_mapError_ok h)
    · split at h
      · exact length_readWord (ok_of_mapError_ok h)
      · split at h
        · exact length_readWord (ok_of_mapError_ok h)
        · split at h
          · exact length_readWord (ok_of_mapError_ok h)
          · cases h

def ofPunctuation (c : Char) : Option Token :=
  match c with
  | '[' => some .openArray
  | ']' => some .closeArray
  | '\x7b' => some .openObject
  | '\x7d' => some .closeObject
  | ',' => some .comma
  | ':' => some .colon
  | _ => none

/-- The tokens of a text, up to the end of the text or to the first token that breaks off. -/
def ofChars (s : List Char) : List Token :=
  match s with
  | [] => []
  | c :: cs =>
      if isSpace c then ofChars cs
      else match ofPunctuation c with
        | some t => t :: ofChars cs
        | none =>
            match h : readLeaf c cs with
            | .error t => [t]
            | .ok (l, rest) =>
                have := length_readLeaf h
                .leaf l :: ofChars rest
  termination_by s.length

end Token

end GameExport.Json
