import Workflow.Json.Value
import Workflow.Number.Shortest

/-!
The text of JSON values, on one line or indented.
-/

namespace Workflow

def Number.text : Number → String
  | integer z => toString z
  | double x => String.ofList x.text

namespace Json

def hexDigit (n : Nat) : Char :=
  if n < 10 then Char.ofNat ('0'.toNat + n) else Char.ofNat ('a'.toNat + (n - 10))

/-- How a character stands inside quotes. -/
def escape (c : Char) : List Char :=
  if c = '"' then ['\\', '"']
  else if c = '\\' then ['\\', '\\']
  else if c = '\x08' then ['\\', 'b']
  else if c = '\x0c' then ['\\', 'f']
  else if c = '\n' then ['\\', 'n']
  else if c = '\r' then ['\\', 'r']
  else if c = '\t' then ['\\', 't']
  else if c < ' ' then ['\\', 'u', '0', '0', hexDigit (c.toNat / 16), hexDigit (c.toNat % 16)]
  else [c]

def quote (s : String) : String :=
  "\"" ++ String.ofList (s.toList.flatMap escape) ++ "\""

/-- Items between brackets, one to a line, at a depth of `indent` blanks. -/
def block (opening closing : String) (indent : Nat) (items : List String) : String :=
  if items.isEmpty then opening ++ closing
  else
    let blanks (n : Nat) := String.ofList (List.replicate n ' ')
    let line := "\n" ++ blanks (indent + 2)
    opening ++ line ++ ("," ++ line).intercalate items ++ "\n" ++ blanks indent ++ closing

end Json

namespace Value

open Json

mutual

/-- The text on one line, without blanks. -/
def compact : Value → String
  | null => "null"
  | bool b => toString b
  | number n => n.text
  | string s => quote s
  | array items => "[" ++ ",".intercalate (compactItems items) ++ "]"
  | object fields => "\x7b" ++ ",".intercalate (compactFields fields) ++ "\x7d"

def compactItems : List Value → List String
  | [] => []
  | v :: vs => v.compact :: compactItems vs

def compactFields : List (String × Value) → List String
  | [] => []
  | (k, v) :: rest => (quote k ++ ":" ++ v.compact) :: compactFields rest

end

mutual

/-- The text with an item to a line, each level indented by two blanks. -/
def prettyAt (indent : Nat) : Value → String
  | null => "null"
  | bool b => toString b
  | number n => n.text
  | string s => quote s
  | array items => block "[" "]" indent (prettyItems (indent + 2) items)
  | object fields => block "\x7b" "\x7d" indent (prettyFields (indent + 2) fields)

def prettyItems (indent : Nat) : List Value → List String
  | [] => []
  | v :: vs => v.prettyAt indent :: prettyItems indent vs

def prettyFields (indent : Nat) : List (String × Value) → List String
  | [] => []
  | (k, v) :: rest => (quote k ++ ": " ++ v.prettyAt indent) :: prettyFields indent rest

end

def pretty (v : Value) : String := v.prettyAt 0

end Value

end Workflow
