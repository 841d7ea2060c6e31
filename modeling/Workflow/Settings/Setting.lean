import Workflow.Data.SortedMap
import Workflow.Number.Numeral

/-!
Settings before they have a meaning: a tree of tables over scalars and lists, and what its parts
can be read as.
-/

namespace Workflow

inductive Setting where
  /-- A place in a list that nothing was put at. -/
  | nothing
  | text (s : String)
  | integer (z : Int)
  | double (x : Extended)
  | flag (b : Bool)
  | list (items : List Setting)
  | table (fields : List (String × Setting))

namespace Setting

/-- The fields of a table; nothing else has any. -/
def fields : Setting → List (String × Setting)
  | table fields => fields
  | _ => []

/-- The items of a list; nothing else has any. -/
def items : Setting → List Setting
  | list items => items
  | _ => []

/-- Scalars stand for their text. -/
def text? : Setting → Option String
  | nothing => none
  | text s => some s
  | integer z => some (toString z)
  | double x => some x.text
  | flag b => some (if b then "true" else "false")
  | list _ => none
  | table _ => none

def texts? : Setting → Option (List String)
  | list items => items.mapM text?
  | _ => none

/-- Flags count as one and nothing, also when they are written out. -/
def count? : Setting → Option Nat
  | nothing => none
  | text s =>
    let s := s.toLower
    if s = "true" ∨ s = "on" ∨ s = "yes" then some 1
    else if s = "false" ∨ s = "off" ∨ s = "no" then some 0
    else Numeral.count? s.toList
  | integer z => if 0 ≤ z then some z.toNat else none
  | double x => some x.count
  | flag b => some (if b then 1 else 0)
  | list _ => none
  | table _ => none

/-- The part of a section at a key, or, where the section is a list, at a position. No section
has no parts, and what is neither a table nor a list is no section. -/
def part? (section? : Option Setting) (key : String) (position : Nat) : Option (Option Setting) :=
  match section? with
  | none => some none
  | some (table fields) => some (Entries.get? key fields)
  | some (list items) => some items[position]?
  | some _ => none

end Setting

end Workflow
