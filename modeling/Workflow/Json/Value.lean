import Workflow.Data.SortedMap
import Workflow.Number.Double

/-!
JSON values. An integer is any that fits 64 bits, with or without a sign; every other number is
a double. The fields of an object are listed in the order in which they are written.
-/

namespace Workflow

inductive Number where
  | integer (z : Int)
  | double (x : Double)
deriving DecidableEq

inductive Value where
  | null
  | bool (b : Bool)
  | number (n : Number)
  | string (s : String)
  | array (items : List Value)
  | object (fields : List (String × Value))

namespace Value

instance : Inhabited Value := ⟨null⟩

mutual

def decEq : (a b : Value) → Decidable (a = b)
  | null, b => by
    cases b <;> first | exact isTrue rfl | exact isFalse nofun
  | bool x, b => by
    cases b
    case bool y =>
      exact if h : x = y then isTrue (h ▸ rfl) else isFalse fun e => h (bool.inj e)
    all_goals exact isFalse nofun
  | number x, b => by
    cases b
    case number y =>
      exact if h : x = y then isTrue (h ▸ rfl) else isFalse fun e => h (number.inj e)
    all_goals exact isFalse nofun
  | string x, b => by
    cases b
    case string y =>
      exact if h : x = y then isTrue (h ▸ rfl) else isFalse fun e => h (string.inj e)
    all_goals exact isFalse nofun
  | array xs, b =>
    match b with
    | array ys =>
      match decEqItems xs ys with
      | isTrue h => isTrue (h ▸ rfl)
      | isFalse h => isFalse fun e => h (array.inj e)
    | null | bool _ | number _ | string _ | object _ => isFalse nofun
  | object xs, b =>
    match b with
    | object ys =>
      match decEqFields xs ys with
      | isTrue h => isTrue (h ▸ rfl)
      | isFalse h => isFalse fun e => h (object.inj e)
    | null | bool _ | number _ | string _ | array _ => isFalse nofun

def decEqItems : (xs ys : List Value) → Decidable (xs = ys)
  | [], [] => isTrue rfl
  | [], _ :: _ => isFalse nofun
  | _ :: _, [] => isFalse nofun
  | x :: xs, y :: ys =>
    match decEq x y, decEqItems xs ys with
    | isTrue h, isTrue h' => isTrue (h ▸ h' ▸ rfl)
    | isFalse h, _ => isFalse fun e => h (List.cons.inj e).1
    | _, isFalse h => isFalse fun e => h (List.cons.inj e).2

def decEqFields : (xs ys : List (String × Value)) → Decidable (xs = ys)
  | [], [] => isTrue rfl
  | [], _ :: _ => isFalse nofun
  | _ :: _, [] => isFalse nofun
  | (k, x) :: xs, (j, y) :: ys =>
    if hk : k = j then
      match decEq x y, decEqFields xs ys with
      | isTrue h, isTrue h' => isTrue (hk ▸ h ▸ h' ▸ rfl)
      | isFalse h, _ => isFalse fun e => h (Prod.mk.inj (List.cons.inj e).1).2
      | _, isFalse h => isFalse fun e => h (List.cons.inj e).2
    else isFalse fun e => hk (Prod.mk.inj (List.cons.inj e).1).1

end

instance : DecidableEq Value := decEq

/-- The name of a value's kind. -/
def kind : Value → String
  | null => "null"
  | bool _ => "boolean"
  | number _ => "number"
  | string _ => "string"
  | array _ => "array"
  | object _ => "object"

def nat (n : Nat) : Value := number (.integer n)

/-- The value of a field, `none` as well when this is no object. -/
def field? (v : Value) (name : String) : Option Value :=
  match v with
  | object fields => Entries.get? name fields
  | _ => none

theorem sizeOf_get? {name : String} {v : Value} {fields : List (String × Value)}
    (h : Entries.get? name fields = some v) : sizeOf v < sizeOf fields := by
  induction fields with
  | nil => simp [Entries.get?] at h
  | cons e rest ih =>
    obtain ⟨k, w⟩ := e
    simp only [Entries.get?] at h
    split at h
    · cases h
      simp
      omega
    · have := ih h
      simp
      omega

def string? : Value → Option String
  | string s => some s
  | _ => none

def items? : Value → Option (List Value)
  | array xs => some xs
  | _ => none

def fields? : Value → Option (List (String × Value))
  | object fields => some fields
  | _ => none

/-- A non-negative integer below `bound`. -/
def natBelow? (bound : Nat) : Value → Option Nat
  | number (.integer (.ofNat n)) => if n < bound then some n else none
  | _ => none

def strings? (v : Value) : Option (List String) :=
  v.items?.bind (·.mapM string?)

/-- The object with the bindings of a map, in key order. -/
def ofMap {α : Type} (f : α → Value) (m : SortedMap String α) : Value :=
  object (m.entries.map fun e => (e.1, f e.2))

/-- The fields that are present. -/
def present (fields : List (String × Option Value)) : List (String × Value) :=
  fields.filterMap fun e => e.2.map (e.1, ·)

end Value

end Workflow
