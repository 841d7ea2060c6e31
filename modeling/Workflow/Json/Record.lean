import Workflow.Json.Value

/-!
Records in JSON: an object gives the fields by name, an array gives them by position.
-/

namespace Workflow

/-- The fields of a record in the order in which an array gives them; an array may stop behind the
required ones. -/
structure Layout where
  required : List String
  optional : List String

namespace Layout

def names (l : Layout) : List String := l.required ++ l.optional

/-- Whether a value has the form of a record. What an object lacks is seen field by field. -/
def admits (l : Layout) : Value → Bool
  | .object _ => true
  | .array items => l.required.length ≤ items.length && items.length ≤ l.names.length
  | _ => false

end Layout

namespace Value

/-- A field of a record. -/
def part? (l : Layout) (v : Value) (name : String) : Option Value :=
  match v with
  | object fields => Entries.get? name fields
  | array items => items[l.names.idxOf name]?
  | _ => none

theorem sizeOf_part? {l : Layout} {name : String} {v w : Value} (h : v.part? l name = some w) :
    sizeOf w < sizeOf v := by
  cases v with
  | object fields =>
    have := sizeOf_get? h
    simp
    omega
  | array items =>
    have := List.sizeOf_lt_of_mem (List.mem_of_getElem? h)
    simp
    omega
  | _ => simp [part?] at h

end Value

end Workflow
