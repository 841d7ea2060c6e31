import Workflow.Json.Scalar

/-!
Reading a JSON document. Arrays and objects may nest 127 deep; of two fields with one key the
later stays, and the fields of an object come in key order.
-/

namespace Workflow.Json

def isBlank (c : Char) : Bool := c = ' ' || c = '\n' || c = '\t' || c = '\r'

def skipBlanks (cs : List Char) : List Char := cs.dropWhile isBlank

/-- A reader takes something off the front of a text. -/
abbrev Reader (α : Type) := List Char → Option (α × List Char)

/-- Reads the rest of a comma-separated list of at most `fuel` items behind its first item, up to
the closing bracket; `read` holds the items so far, last one first. -/
def moreItems {α : Type} (item : Reader α) (close : Char) (read : List α) :
    (fuel : Nat) → List Char → Option (List α × List Char)
  | 0, _ => none
  | fuel + 1, cs =>
    match skipBlanks cs with
    | [] => none
    | c :: rest =>
      if c = close then some (read.reverse, rest)
      else if c = ',' then
        match item (skipBlanks rest) with
        | some (a, rest) => moreItems item close (a :: read) fuel rest
        | none => none
      else none

/-- Reads a list behind its opening bracket. Each item takes a character, so the length of the
text bounds their number. -/
def items {α : Type} (item : Reader α) (close : Char) : Reader (List α) := fun cs =>
  match skipBlanks cs with
  | [] => none
  | c :: rest =>
    if c = close then some ([], rest)
    else
      match item (c :: rest) with
      | some (a, rest) => moreItems item close [a] (rest.length + 1) rest
      | none => none

def field (value : Reader Value) : Reader (String × Value) := fun cs =>
  match readString cs with
  | .error _ => none
  | .ok (key, rest) =>
    match skipBlanks rest with
    | ':' :: rest => (value (skipBlanks rest)).map fun (v, rest) => ((key, v), rest)
    | _ => none

def word (text : String) (v : Value) : Reader Value := fun cs =>
  if text.toList.isPrefixOf cs then some (v, cs.drop text.length) else none

/-- Reads anything but an array or an object. -/
def scalar : Reader Value := fun cs =>
  match cs with
  | [] => none
  | '"' :: _ =>
    match readString cs with
    | .ok (s, rest) => some (.string s, rest)
    | .error _ => none
  | 'n' :: _ => word "null" .null cs
  | 't' :: _ => word "true" (.bool true) cs
  | 'f' :: _ => word "false" (.bool false) cs
  | _ =>
    match readNumber cs with
    | .ok (n, rest) => some (.number n, rest)
    | .error _ => none

/-- Reads a value in which arrays and objects nest at most `depth` deep. -/
def value : (depth : Nat) → Reader Value
  | 0, cs => scalar cs
  | depth + 1, cs =>
    match cs with
    | '[' :: rest =>
      (items (value depth) ']' rest).map fun (vs, rest) => (.array vs, rest)
    | '{' :: rest =>
      (items (field (value depth)) '}' rest).map fun (fields, rest) =>
        (.object (SortedMap.ofList fields).entries, rest)
    | _ => scalar cs

def maxDepth : Nat := 127

/-- Reads a whole text as one value. -/
def parse? (text : String) : Option Value :=
  match value maxDepth (skipBlanks text.toList) with
  | some (v, rest) => if (skipBlanks rest).isEmpty then some v else none
  | none => none

end Workflow.Json
