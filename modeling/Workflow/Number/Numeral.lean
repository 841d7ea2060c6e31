import Workflow.Number.Extended

/-!
Numbers in decimal digits: integers and counts of 64 bits, and numbers with a fraction or an
exponent, for which there are also words.
-/

namespace Workflow.Numeral

def digitsValue (ds : List Char) : Nat := ds.foldl (fun n d => 10 * n + (d.toNat - '0'.toNat)) 0

/-- A run of digits, not empty. -/
def natural? (ds : List Char) : Option Nat :=
  if ! ds.isEmpty && ds.all Char.isDigit then some (digitsValue ds) else none

/-- Whether a minus stands in front, and what follows the sign. -/
def splitSign : List Char → Bool × List Char
  | '-' :: ds => (true, ds)
  | '+' :: ds => (false, ds)
  | ds => (false, ds)

/-- An integer that fits 64 bits with a sign. -/
def word? (z : Int) : Option Int :=
  if -9223372036854775808 ≤ z ∧ z < 9223372036854775808 then some z else none

/-- An integer with an optional sign. -/
def integer? (cs : List Char) : Option Int := do
  let (negative, ds) := splitSign cs
  let n ← natural? ds
  word? (if negative then -(n : Int) else n)

/-- A count with an optional plus that fits 64 bits. -/
def count? (cs : List Char) : Option Nat := do
  let n ← natural? (if cs.head? = some '+' then cs.drop 1 else cs)
  if n ≤ Extended.maxCount then some n else none

/-- The exponent behind the digits of a number; none counts as zero. -/
def exponent? : List Char → Option Int
  | [] => some 0
  | c :: rest =>
    if c = 'e' ∨ c = 'E' then
      let (down, ds) := splitSign rest
      (natural? ds).map fun n => if down then -(n : Int) else n
    else none

/-- Digits with an optional fraction and an optional exponent; either side of the point may be
empty, but not both. -/
def magnitude? (cs : List Char) : Option (Nat × Int) := do
  let whole := cs.takeWhile Char.isDigit
  let (fraction, rest) :=
    match cs.dropWhile Char.isDigit with
    | '.' :: rest => (rest.takeWhile Char.isDigit, rest.dropWhile Char.isDigit)
    | rest => ([], rest)
  let m ← natural? (whole ++ fraction)
  some (m, (← exponent? rest) - fraction.length)

/-- A number with an optional sign, or a word for what is infinite or no number, in letters of
either case. -/
def number? (cs : List Char) : Option Extended :=
  let (negative, cs) := splitSign cs
  let name := (String.ofList cs).toLower
  if name = "inf" ∨ name = "infinity" then some (.infinite negative)
  else if name = "nan" then some .undefined
  else (magnitude? cs).map fun (m, e) => .ofDecimal negative m e

end Workflow.Numeral
