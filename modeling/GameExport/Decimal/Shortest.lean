/-! # Shortest decimal text of a floating point number

A finite positive number is `mantissa · 2 ^ exponent`. Its neighbours bound the reals that round
to it. The coarsest decimal grid with a point in that interval gives the fewest digits, and of
two such points the nearer one is taken, and of two that are equally near the even one.
-/

namespace GameExport.Decimal

structure Binary where
  mantissa : Nat
  exponent : Int
  deriving DecidableEq

/-- Magnitude of a finite number of sixty-four bits. -/
def Binary.ofBits (bits : UInt64) : Binary :=
  let fraction : Nat := bits.toNat % Nat.pow 2 52
  let biased : Nat := bits.toNat / Nat.pow 2 52 % Nat.pow 2 11
  if biased = 0 then ⟨fraction, -1074⟩ else ⟨Nat.pow 2 52 + fraction, Int.ofNat biased - 1075⟩

/-- Decimal digits, read as a natural number, and the power of ten they are multiplied by. -/
structure Figures where
  digits : Nat
  exponent : Int
  deriving DecidableEq

/-- Four times a bound of the interval, in units of the last binary place, is compared with a
count of decimal grid units; both are scaled to natural numbers first. -/
structure Scale where
  binary : Nat
  decimal : Nat

/-- Scale for the binary exponent `q` and the decimal grid `10 ^ k`. -/
def Scale.of (q k : Int) : Scale :=
  ⟨Nat.pow 2 (q - 2).toNat * Nat.pow 10 (-k).toNat, Nat.pow 10 k.toNat * Nat.pow 2 (2 - q).toNat⟩

/-- The grid point of `10 ^ k` nearest to the number among those that round to it. -/
def Binary.onGrid (x : Binary) (k : Int) : Option Figures :=
  let s := Scale.of x.exponent k
  let middle := 4 * x.mantissa * s.binary
  let below := if x.mantissa = Nat.pow 2 52 ∧ x.exponent ≠ -1074 then 1 else 2
  let low := (4 * x.mantissa - below) * s.binary
  let high := (4 * x.mantissa + 2) * s.binary
  let inside (count : Nat) : Bool :=
    let point := count * s.decimal
    if x.mantissa % 2 = 0 then low ≤ point && point ≤ high else low < point && point < high
  let floor := middle / s.decimal
  let twice := 2 * (middle - floor * s.decimal)
  let nearFloor := twice < s.decimal || (twice = s.decimal && floor % 2 = 0)
  if inside floor && floor ≠ 0 && (nearFloor || !inside (floor + 1)) then some ⟨floor, k⟩
  else if inside (floor + 1) then some ⟨floor + 1, k⟩
  else none

/-- Tries `fuel` grids from `10 ^ k` downwards. -/
def Binary.search (x : Binary) : Nat → Int → Option Figures
  | 0, _ => none
  | fuel + 1, k =>
      match x.onGrid k with
      | some d => some d
      | none => x.search fuel (k - 1)

/-- The fewest digits that read back as the number, which is not zero. The first grid tried is
coarser than the number itself. -/
def Binary.shortest (x : Binary) : Figures :=
  let bits : Int := x.exponent + (Nat.log2 x.mantissa : Nat)
  let start := bits * 30103 / 100000 + 2
  (x.search 24 start).getD ⟨0, 0⟩

/-- Digits without their trailing zeros, and how many there were. -/
def dropZeros : Nat → Nat → Nat × Nat
  | 0, n => (n, 0)
  | fuel + 1, n =>
      if n ≠ 0 ∧ n % 10 = 0 then
        let r := dropZeros fuel (n / 10)
        (r.1, r.2 + 1)
      else (n, 0)

def exponentText (n : Int) : List Char :=
  (if 0 ≤ n then ['+'] else []) ++ (toString n).toList

/-- Where positional notation ends: from `10 ^ 16` on, and below `10 ^ -5`, a number is written
with an exponent. Whole numbers keep one zero after the point. -/
def Figures.text (d : Figures) : List Char :=
  let ds := Nat.toDigits 10 d.digits
  let point : Int := ds.length + d.exponent
  if 0 ≤ d.exponent ∧ point ≤ 16 then
    ds ++ List.replicate d.exponent.toNat '0' ++ ['.', '0']
  else if 0 < point ∧ point ≤ 16 then
    ds.take point.toNat ++ '.' :: ds.drop point.toNat
  else if -5 < point ∧ point ≤ 0 then
    '0' :: '.' :: List.replicate (-point).toNat '0' ++ ds
  else
    let power := exponentText (point - 1)
    match ds with
    | [c] => c :: 'e' :: power
    | c :: cs => c :: '.' :: cs ++ 'e' :: power
    | [] => []

def text (x : Float) : List Char :=
  let bits := x.toBits
  let sign := if bits.toNat / Nat.pow 2 63 = 1 then ['-'] else []
  let b := Binary.ofBits bits
  if b.mantissa = 0 then sign ++ ['0', '.', '0']
  else
    let d := b.shortest
    let (digits, zeros) := dropZeros 20 d.digits
    sign ++ Figures.text ⟨digits, d.exponent + (zeros : Int)⟩

end GameExport.Decimal
