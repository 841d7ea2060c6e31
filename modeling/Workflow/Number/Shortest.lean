import Workflow.Number.Double

/-!
The fewest decimal digits that read back as a given binary64 magnitude. A decimal grid with `n`
digits has a point that reads back only if one of the two points next to the magnitude does, so
those two are tested for `n = 1, 2, …` and the nearer one of the first grid with a hit is taken.
-/

namespace Workflow.Double

/-- The reals that round to a rank, in quarter units: from `low` to `high`, the ends included
exactly when the significand is even. -/
structure Basin where
  low : Nat
  mid : Nat
  high : Nat
  closed : Bool

def basin (r : Nat) : Basin :=
  let step := pow2 (scale r)
  let m := significand r
  let below := if m = pow2 52 ∧ 0 < scale r then step else 2 * step
  ⟨4 * m * step - below, 4 * m * step, 4 * m * step + 2 * step, m % 2 = 0⟩

def Basin.holds (b : Basin) (num den : Nat) : Bool :=
  if b.closed then b.low * den ≤ num && num ≤ b.high * den
  else b.low * den < num && num < b.high * den

/-- Quarter units in one. -/
def quarters : Nat := pow2 1076

/-- The decimal exponent of the first digit of `mid / quarters`, raised by 400. -/
def leading (mid : Nat) : Nat :=
  (Nat.toDigits 10 (mid * pow10 400 / quarters)).length - 1

/-- The point of the grid with spacing `10 ^ (p - 400)` that reads back, if there is one. -/
def pointOn (b : Basin) (p : Nat) : Option Nat :=
  let num (c : Nat) := c * pow10 p * quarters
  let mid := b.mid * pow10 400
  let c := mid / (pow10 p * quarters)
  let reads (c : Nat) := b.holds (num c) (pow10 400)
  match reads c, reads (c + 1) with
  | false, false => none
  | true, false => some c
  | false, true => some (c + 1)
  | true, true =>
    let down := mid - num c
    let up := num (c + 1) - mid
    some (if down < up then c else if up < down then c + 1 else c + c % 2)

/-- Tries grids of ever more digits, `more` of them at most after this one. -/
def firstPoint (b : Basin) (p : Nat) : (more : Nat) → Nat × Nat
  | 0 => (b.mid * pow10 400 / (pow10 p * quarters), p)
  | more + 1 =>
    match pointOn b p with
    | some c => (c, p)
    | none => firstPoint b (p - 1) more

/-- Decimal digits without closing zeros, and the exponent of ten of the first digit. -/
structure Decimal where
  digits : List Char
  exponent : Int

def dropZeros (ds : List Char) : List Char :=
  (ds.reverse.dropWhile (· = '0')).reverse

/-- The shortest decimal of a rank above zero. -/
def shortest (r : Nat) : Decimal :=
  let b := basin r
  let (c, p) := firstPoint b (leading b.mid) 18
  let ds := Nat.toDigits 10 c
  ⟨dropZeros ds, (p : Int) - 400 + ds.length - 1⟩

def zeros (n : Nat) : List Char := List.replicate n '0'

/-- Positional from `1e-5` up to `1e16`, otherwise one digit before the point and a signed
exponent; an integral number keeps `.0` when positional. -/
def Decimal.text (d : Decimal) : List Char :=
  if -5 ≤ d.exponent ∧ d.exponent < 0 then
    '0' :: '.' :: zeros (d.exponent.natAbs - 1) ++ d.digits
  else if 0 ≤ d.exponent ∧ d.exponent < 16 then
    let whole := d.exponent.toNat + 1
    if d.digits.length ≤ whole then
      d.digits ++ zeros (whole - d.digits.length) ++ ['.', '0']
    else d.digits.take whole ++ '.' :: d.digits.drop whole
  else
    let sign := if d.exponent < 0 then '-' else '+'
    let tail := d.digits.drop 1
    d.digits.take 1 ++ (if tail.isEmpty then [] else '.' :: tail) ++
      'e' :: sign :: Nat.toDigits 10 d.exponent.natAbs

/-- Without exponent, whatever the magnitude, and without a closing `.0`. -/
def Decimal.positional (d : Decimal) : List Char :=
  if d.exponent < 0 then '0' :: '.' :: zeros (d.exponent.natAbs - 1) ++ d.digits
  else
    let whole := d.exponent.toNat + 1
    if d.digits.length ≤ whole then d.digits ++ zeros (whole - d.digits.length)
    else d.digits.take whole ++ '.' :: d.digits.drop whole

/-- The text of a number, with the given text of zero and of the other magnitudes. -/
def signed (x : Double) (zero : List Char) (write : Decimal → List Char) : List Char :=
  let magnitude := if x.rank = 0 then zero else write (shortest x.rank)
  if x.negative then '-' :: magnitude else magnitude

def positional (x : Double) : List Char := x.signed ['0'] Decimal.positional

def text (x : Double) : List Char := x.signed ['0', '.', '0'] Decimal.text

end Workflow.Double
