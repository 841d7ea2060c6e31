import Workflow.Toml.Reader

/-!
Strings and arrays of strings, written in TOML. A string takes the first form that needs no escape,
that of a tab apart; text with line ends stands on lines of its own.
-/

namespace Workflow.Toml

/-- The greatest number of copies of a character side by side. -/
def longestRun (c : Char) : (run : Nat) → List Char → Nat
  | n, [] => n
  | n, d :: ds => if d = c then longestRun c (n + 1) ds else max n (longestRun c 0 ds)

/-- Characters that only a code stands for, or that are written as one. -/
def isCoded (c : Char) : Bool := isControl c && c ≠ '\n'

def upperHexDigit (n : Nat) : Char :=
  if n < 10 then Char.ofNat ('0'.toNat + n) else Char.ofNat ('A'.toNat + (n - 10))

/-- A character between double quotes, quotes apart. -/
def escape (isLong : Bool) (c : Char) : List Char :=
  if c = '\\' then ['\\', '\\']
  else if c = '\x08' then ['\\', 'b']
  else if c = '\t' then ['\\', 't']
  else if c = '\n' then (if isLong then ['\n'] else ['\\', 'n'])
  else if c = '\x0c' then ['\\', 'f']
  else if c = '\r' then ['\\', 'r']
  else if isControl c then
    ['\\', 'u', '0', '0', upperHexDigit (c.toNat / 16), upperHexDigit (c.toNat % 16)]
  else [c]

/-- Text between double quotes. A third quote in a row is escaped where the text may be long, and
every quote where it may not; `quotes` counts those that stand in front. -/
def escapeAll (isLong : Bool) : (quotes : Nat) → List Char → List Char
  | _, [] => []
  | quotes, c :: cs =>
    if c = '"' then
      if quotes < (if isLong then 2 else 0) then c :: escapeAll isLong (quotes + 1) cs
      else '\\' :: '"' :: escapeAll isLong 0 cs
    else escape isLong c ++ escapeAll isLong 0 cs

/-- A string in three quotes at either end; text with line ends starts on the next line. -/
def long (mark : Char) (cs body : List Char) : List Char :=
  let marks := [mark, mark, mark]
  marks ++ (if '\n' ∈ cs then ['\n'] else []) ++ body ++ marks

def quote (s : String) : String :=
  let cs := s.toList
  let short := '"' :: escapeAll false 0 cs ++ ['"']
  let isCoded := cs.any isCoded
  let isOneLine := ! cs.elem '\n'
  let hasSlash := cs.elem '\\'
  let doubles := longestRun '"' 0 cs
  let singles := longestRun '\'' 0 cs
  String.ofList <|
    if ! isCoded && ! hasSlash && doubles = 0 && isOneLine then short
    else if ! isCoded && singles = 0 && isOneLine then '\'' :: cs ++ ['\'']
    else if ! isCoded && ! hasSlash && doubles ≤ 2 then long '"' cs (escapeAll true 0 cs)
    else if ! isCoded && singles ≤ 2 then long '\'' cs cs
    else if isOneLine then short
    else long '"' cs (escapeAll true 0 cs)

/-- Several strings take a line each. -/
def array (ss : List String) : String :=
  match ss with
  | [] => "[]"
  | [s] => "[" ++ quote s ++ "]"
  | ss => "[\n" ++ String.join (ss.map fun s => "    " ++ quote s ++ ",\n") ++ "]"

end Workflow.Toml
