import Workflow.Toml.Number
import Workflow.Toml.Tree

/-!
Values of TOML: scalars, arrays and tables on one line.
-/

namespace Workflow.Toml

/-- The first character of a scalar tells most of them apart; a moment is tried before a number. -/
def scalar (cs : List Char) : Option (Entry × List Char) :=
  match cs with
  | '"' :: rest => (enclosed .basic rest).map fun (s, rest) => (.scalar (.text s), rest)
  | '\'' :: rest => (enclosed .literal rest).map fun (s, rest) => (.scalar (.text s), rest)
  | 't' :: _ => (Text.after? "true".toList cs).map (.scalar (.flag true), ·)
  | 'f' :: _ => (Text.after? "false".toList cs).map (.scalar (.flag false), ·)
  | cs =>
    match moment .plain cs with
    | some (s, rest) => some (.moment s, rest)
    | none => (number cs).map fun (s, rest) => (.scalar s, rest)

/-- The items of an array up to its closing bracket, where an item or the bracket stands next;
`read` holds the items so far, last one first. -/
def items (item : Reader Entry) (read : List Entry) : (fuel : Nat) → Reader (List Entry)
  | 0, _ => none
  | fuel + 1, cs =>
    match skipLines cs with
    | ']' :: rest => some (read.reverse, rest)
    | cs =>
      match item cs with
      | none => none
      | some (e, rest) =>
        match skipLines rest with
        | ',' :: rest => items item (e :: read) fuel rest
        | ']' :: rest => some ((e :: read).reverse, rest)
        | _ => none

/-- A key and its value. -/
def entry (value : Reader Entry) : Reader (KeyPath × Entry) := fun cs => do
  let (path, rest) ← keyPath cs
  let (e, rest) ← value (skipBlanks (← Text.after? ['='] rest))
  some ((path, e), rest)

/-- The entries of a table up to its closing brace; a comma has an entry behind it. -/
def entries (value : Reader Entry) (fields : Fields) : (fuel : Nat) → Reader Fields
  | 0, _ => none
  | fuel + 1, cs =>
    match entry value cs with
    | none => none
    | some ((path, e), rest) =>
      match Fields.assign path e .header fields, skipBlanks rest with
      | some fields, ',' :: rest => entries value fields fuel rest
      | some fields, '\x7d' :: rest => some (fields, rest)
      | _, _ => none

/-- A table behind its opening brace. -/
def inlineTable (value : Reader Entry) : Reader Entry := fun cs =>
  match skipBlanks cs with
  | '\x7d' :: rest => some (.table .closed [], rest)
  | cs =>
    (entries value [] (cs.length + 1) cs).map fun (fields, rest) => (.table .closed fields, rest)

/-- A value in which others nest at most `depth` deep. -/
def value : (depth : Nat) → Reader Entry
  | 0, cs => scalar cs
  | depth + 1, cs =>
    match cs with
    | '[' :: rest =>
      (items (value depth) [] (rest.length + 1) rest).map fun (es, rest) => (.array es, rest)
    | '\x7b' :: rest => inlineTable (value depth) rest
    | cs => scalar cs

end Workflow.Toml
