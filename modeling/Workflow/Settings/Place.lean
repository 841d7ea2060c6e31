import Workflow.Settings.Setting

/-!
Places in a tree of settings, and putting settings there. A place is a name with steps behind it,
to a field or to an item of a list. What stands in the way of a place gives way to it; a table is
laid over what is there field by field, and everything else replaces it.
-/

namespace Workflow

inductive Step where
  | field (key : String)
  /-- Counted from the end when negative. -/
  | item (index : Int)
deriving DecidableEq

namespace Step

/-! ### Reading -/

def isNameChar (c : Char) : Bool := c.isAlphanum || c = '_' || c = '-' || c = ' '

def isBlank (c : Char) : Bool := c = ' ' || c = '\t'

/-- A name and the rest. -/
def name? (cs : List Char) : Option (String × List Char) :=
  let name := cs.takeWhile isNameChar
  if name.isEmpty then none else some (String.ofList name, cs.dropWhile isNameChar)

/-- A number up to a closing bracket, with an optional minus and blanks around it. -/
def index? (cs : List Char) : Option (Int × List Char) := do
  let cs := cs.dropWhile isBlank
  let sign := if cs.head? = some '-' then ['-'] else []
  let digits := (cs.drop sign.length).takeWhile Char.isDigit
  let z ← Numeral.integer? (sign ++ digits)
  match (cs.drop (sign.length + digits.length)).dropWhile isBlank with
  | ']' :: rest => some (z, rest)
  | _ => none

/-- Steps up to the end of the text; each takes a character, so its length bounds their number. -/
def all? : (fuel : Nat) → List Char → Option (List Step)
  | _, [] => some []
  | 0, _ => none
  | fuel + 1, c :: cs =>
    if c = '.' then do
      let (key, rest) ← name? cs
      let steps ← all? fuel rest
      some (field key :: steps)
    else if c = '[' then do
      let (z, rest) ← index? cs
      let steps ← all? fuel rest
      some (item z :: steps)
    else none

/-- The way that a key spells out; one that spells none is a name as a whole. -/
def ofKey (key : String) : List Step :=
  let cs := key.toList
  match name? cs with
  | none => [field key]
  | some (name, rest) =>
    match all? rest.length rest with
    | none => [field key]
    | some steps => field name :: steps

end Step

namespace Setting

/-- Names are kept in small letters; the sign of the unit kelvin counts as a capital K. -/
def folded (key : String) : String :=
  String.ofList (key.toList.map fun c => if c = '\u212a' then 'k' else c.toLower)

mutual

/-- Lays a setting over what is there, if anything is. -/
def layOver (old : Option Setting) : Setting → Setting
  | table new => layAll (old.getD (table [])) new
  | new => new

/-- Lays fields over a setting, which the first of them makes a table. -/
def layAll (old : Setting) : List (String × Setting) → Setting
  | [] => old
  | (key, new) :: rest =>
    let name := folded key
    layAll (table (Entries.insert name (layOver (Entries.get? name old.fields) new) old.fields))
      rest

end

/-- The position that an index means in a list of some length. -/
def position (index : Int) (length : Nat) : Nat :=
  if index < 0 then length - index.natAbs else index.toNat

/-- Puts a setting where steps lead from another one. -/
def put (new old : Setting) : List Step → Setting
  | [] => new
  | [.field key] => layAll old [(key, new)]
  | .field key :: steps =>
    let name := folded key
    let inner := (Entries.get? name old.fields).getD nothing
    table (Entries.insert name (put new inner steps) old.fields)
  | .item index :: steps =>
    let n := position index old.items.length
    let items := old.items ++ List.replicate (n + 1 - old.items.length) nothing
    list (items.set n (put new (items.getD n nothing) steps))

/-- Puts each setting where its key leads. -/
def putAll (old : Setting) (entries : List (String × Setting)) : Setting :=
  entries.foldl (fun s (key, new) => put new s (Step.ofKey key)) old

end Setting

end Workflow
