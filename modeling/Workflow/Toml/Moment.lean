import Workflow.Number.Numeral
import Workflow.Toml.Reader

/-!
Moments of TOML: a date, a time of day, or both, then perhaps with what the place is ahead of
universal time. Settings keep them as text, in one spelling each. A moment is written down as such,
or as a text that stands for one, where more hours and minutes pass.
-/

namespace Workflow.Toml

/-- Two digits with a value in a range. -/
def twoDigits (low high : Nat) : Reader (List Char)
  | c :: d :: rest =>
    if c.isDigit && d.isDigit then
      let n := Numeral.digitsValue [c, d]
      if low ≤ n ∧ n ≤ high then some ([c, d], rest) else none
    else none
  | _ => none

def isLeap (year : Nat) : Bool := year % 4 = 0 && (year % 100 ≠ 0 || year % 400 = 0)

def daysIn (year month : Nat) : Nat :=
  if month = 2 then (if isLeap year then 29 else 28)
  else if month = 4 ∨ month = 6 ∨ month = 9 ∨ month = 11 then 30
  else 31

/-- A year in four digits, a month and a day that the month has. -/
def date : Reader (List Char) := fun cs => do
  let year := cs.take 4
  if year.length = 4 && year.all Char.isDigit then
    let (month, rest) ← twoDigits 1 12 (← Text.after? ['-'] (cs.drop 4))
    let last := daysIn (Numeral.digitsValue year) (Numeral.digitsValue month)
    let (day, rest) ← twoDigits 1 last (← Text.after? ['-'] rest)
    some (year ++ '-' :: month ++ '-' :: day, rest)
  else none

/-- Parts of a second, to the ninth digit and without closing zeros. -/
def secondParts : Reader (List Char)
  | '.' :: rest =>
    let ds := rest.takeWhile Char.isDigit
    let kept := ((ds.take 9).reverse.dropWhile (· = '0')).reverse
    if ds.isEmpty then none
    else some (if kept.isEmpty then [] else '.' :: kept, rest.dropWhile Char.isDigit)
  | cs => some ([], cs)

/-- The last hour of a time of day, and the last hour and minute that a place may be ahead. -/
structure Bounds where
  hour : Nat
  zoneHour : Nat
  zoneMinute : Nat

/-- The bounds for moments that are written down as such. -/
def Bounds.plain : Bounds := ⟨23, 23, 59⟩

/-- The bounds for texts that stand for moments. -/
def Bounds.text : Bounds := ⟨24, 99, 99⟩

/-- A time of day; a minute may have a sixty-first second. -/
def time (b : Bounds) : Reader (List Char) := fun cs => do
  let (hour, rest) ← twoDigits 0 b.hour cs
  let (minute, rest) ← twoDigits 0 59 (← Text.after? [':'] rest)
  let (second, rest) ← twoDigits 0 60 (← Text.after? [':'] rest)
  let (parts, rest) ← secondParts rest
  some (hour ++ ':' :: minute ++ ':' :: second ++ parts, rest)

/-- A number below a hundred in two digits. -/
def inTwoDigits (n : Nat) : List Char := [(n / 10).digitChar, (n % 10).digitChar]

/-- What a place is ahead of universal time, or behind it, which is a day at most. -/
def zone (b : Bounds) (cs : List Char) : Option (List Char × List Char) :=
  match cs with
  | [] => some ([], [])
  | c :: rest =>
    if c = 'Z' ∨ c = 'z' then some (['Z'], rest)
    else if c = '+' ∨ c = '-' then do
      let (hours, rest) ← twoDigits 0 b.zoneHour rest
      let (minutes, rest) ← twoDigits 0 b.zoneMinute (← Text.after? [':'] rest)
      let n := 60 * Numeral.digitsValue hours + Numeral.digitsValue minutes
      if n ≤ 1440 then
        let s := if n = 0 then '+' else c
        some (s :: inTwoDigits (n / 60) ++ ':' :: inTwoDigits (n % 60), rest)
      else none
    else some ([], cs)

/-- A blank in front of something else than a time ends a date. -/
def dated (b : Bounds) : Reader (List Char) := fun cs => do
  let (day, rest) ← date cs
  let clock? :=
    match rest with
    | 'T' :: rest => time b rest
    | 't' :: rest => time b rest
    | ' ' :: rest => time b rest
    | _ => none
  match clock? with
  | none => some (day, rest)
  | some (clock, rest) =>
    let (ahead, rest) ← zone b rest
    some (day ++ 'T' :: clock ++ ahead, rest)

/-- A moment in its one spelling. -/
def moment (b : Bounds) : Reader String := fun cs =>
  ((dated b cs).or (time b cs)).map fun (cs, rest) => (String.ofList cs, rest)

/-- The moment that a text stands for. -/
def momentOfText? (text : String) : Option String :=
  match moment .text text.toList with
  | some (s, []) => some s
  | _ => none

end Workflow.Toml
