import Workflow.Number.Numeral
import Workflow.Settings.Setting
import Workflow.Toml.Quoted

/-!
Numbers of TOML: integers in four bases, numbers with a fraction or an exponent, and the words
`inf` and `nan`. An underscore may stand between two digits.
-/

namespace Workflow.Toml

/-- Digits with underscores between them, given without; the first may not be an underscore. -/
def digits (isDigit : Char → Bool) : Reader (List Char)
  | [] => none
  | c :: rest => if isDigit c then some (more [c] rest) else none
where
  more (read : List Char) : List Char → List Char × List Char
    | '_' :: d :: rest =>
      if isDigit d then more (d :: read) rest else (read.reverse, '_' :: d :: rest)
    | c :: rest => if isDigit c then more (c :: read) rest else (read.reverse, c :: rest)
    | [] => (read.reverse, [])

/-- The sign of a number. -/
def sign : List Char → List Char × List Char
  | '-' :: rest => (['-'], rest)
  | '+' :: rest => (['+'], rest)
  | cs => ([], cs)

/-- An integer with an optional sign and without leading zeros. -/
def whole (cs : List Char) : Option (List Char × List Char) :=
  let (s, cs) := sign cs
  match cs with
  | '0' :: rest => some (s ++ ['0'], rest)
  | cs => (digits Char.isDigit cs).map fun (ds, rest) => (s ++ ds, rest)

/-- A fraction; a point without digits behind it is an error. -/
def fraction : Reader (List Char)
  | '.' :: rest => (digits Char.isDigit rest).map fun (ds, rest) => ('.' :: ds, rest)
  | cs => some ([], cs)

def exponent (cs : List Char) : Option (List Char × List Char) :=
  match cs with
  | [] => some ([], [])
  | c :: rest =>
    if c = 'e' ∨ c = 'E' then
      let (s, rest) := sign rest
      (digits Char.isDigit rest).map fun (ds, rest) => ('e' :: s ++ ds, rest)
    else some ([], cs)

/-- A number in the base ten is an integer when it has neither a fraction nor an exponent. An
integer has to fit 64 bits, and a positive number may not be too great. -/
def decimal : Reader Setting := fun cs => do
  let (integral, rest) ← whole cs
  let (part, rest) ← fraction rest
  let (power, rest) ← exponent rest
  if part.isEmpty && power.isEmpty then
    some (.integer (← Numeral.integer? integral), rest)
  else
    let x ← Numeral.number? (integral ++ part ++ power)
    if x = .infinite false then none else some (.double x, rest)

def isHex (c : Char) : Bool := (Hexadecimal.digit? c).isSome

def isOctal (c : Char) : Bool := '0' ≤ c && c ≤ '7'

def isBinary (c : Char) : Bool := c = '0' || c = '1'

/-- The digits of an integer behind the mark of its base. -/
def based (base : Nat) (isDigit : Char → Bool) : Reader Setting := fun cs => do
  let (ds, rest) ← digits isDigit cs
  let n ← ds.foldlM (fun n d => (Hexadecimal.digit? d).map (base * n + ·)) 0
  some (.integer (← Numeral.word? n), rest)

/-- The words for numbers that have no digits. -/
def named : Reader Setting := fun cs =>
  let (s, cs) := sign cs
  match Text.after? ['i', 'n', 'f'] cs, Text.after? ['n', 'a', 'n'] cs with
  | some rest, _ => some (.double (.infinite (s = ['-'])), rest)
  | none, some rest => some (.double .undefined, rest)
  | none, none => none

def number : Reader Setting
  | '0' :: 'x' :: rest => based 16 isHex rest
  | '0' :: 'o' :: rest => based 8 isOctal rest
  | '0' :: 'b' :: rest => based 2 isBinary rest
  | cs => (decimal cs).or (named cs)

end Workflow.Toml
