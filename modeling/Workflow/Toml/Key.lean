import Workflow.Toml.Quoted

/-!
Keys of TOML: names, bare or quoted, with points between those that lead into tables.
-/

namespace Workflow.Toml

abbrev KeyPath := List String

def isBare (c : Char) : Bool := c.isAlphanum || c = '_' || c = '-'

/-- A key without points is bare or a string on one line. -/
def simpleKey (cs : List Char) : Option (String × List Char) :=
  match cs with
  | '"' :: rest => shortBody .basic [] (rest.length + 1) rest
  | '\'' :: rest => shortBody .literal [] (rest.length + 1) rest
  | cs =>
    let key := cs.takeWhile isBare
    if key.isEmpty then none else some (String.ofList key, cs.dropWhile isBare)

/-- Simple keys with points between them, blanks around each. -/
def keyPathWithin : (limit : Nat) → Reader KeyPath
  | 0, _ => none
  | limit + 1, cs => do
    let (key, rest) ← simpleKey (skipBlanks cs)
    match skipBlanks rest with
    | '.' :: rest =>
      let (path, rest) ← keyPathWithin limit rest
      some (key :: path, rest)
    | rest => some ([key], rest)

/-- The greatest depth to which keys lead and values nest. -/
def deepest : Nat := 79

def keyPath : Reader KeyPath := keyPathWithin deepest

end Workflow.Toml
