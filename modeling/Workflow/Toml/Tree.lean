import Workflow.Data.SortedMap
import Workflow.Settings.Setting
import Workflow.Toml.Key
import Workflow.Toml.Moment

/-!
Tables under way, their keys in the order in which they come up. What may still be added to a table
depends on what it is there for: a table with a header of its own is not opened again, one that a
longer header goes through may still get a header, one that the points of a key go through only gets
more keys with points, and one on one line gets nothing more.
-/

namespace Workflow.Toml

/-- Why a table is there. -/
inductive Origin where
  | header
  /-- A longer header goes through it. -/
  | implied
  /-- The points of a key go through it. -/
  | dotted
  /-- It stands in braces. -/
  | closed
deriving DecidableEq

inductive Entry where
  | scalar (s : Setting)
  | moment (spelling : String)
  | array (items : List Entry)
  | table (origin : Origin) (fields : List (String × Entry))
  /-- The tables of one header, the last one first. -/
  | tables (all : List (List (String × Entry)))

abbrev Fields := List (String × Entry)

/-- A table that begins with this key stands for the moment that is the value of the key. -/
def momentKey : String := "$__toml_private_datetime"

/-- The moment that a table stands for, by its first key; `none` when it stands for itself. -/
def momentOfFields? : Fields → Option (Option String)
  | (key, .scalar (.text s)) :: _ => if key = momentKey then some (momentOfText? s) else none
  | (key, _) :: _ => if key = momentKey then some none else none
  | [] => none

namespace Entry

mutual

/-- What an entry sets, `none` when it holds a table that should stand for a moment and does
not. -/
def setting? : Entry → Option Setting
  | scalar s => some s
  | moment s => some (.text s)
  | array items => (settings? items).map .list
  | table _ fields => tableSetting? fields
  | tables all => (tableSettings? all).map fun ss => .list ss.reverse

def settings? : List Entry → Option (List Setting)
  | [] => some []
  | e :: rest => do some ((← setting? e) :: (← settings? rest))

def tableSetting? (fields : List (String × Entry)) : Option Setting :=
  match momentOfFields? fields with
  | some s => s.map .text
  | none => (fieldSettings? fields).map .table

/-- The fields of a table by their keys. -/
def fieldSettings? : List (String × Entry) → Option (List (String × Setting))
  | [] => some []
  | (key, e) :: rest => do some (Entries.insert key (← setting? e) (← fieldSettings? rest))

def tableSettings? : List (List (String × Entry)) → Option (List Setting)
  | [] => some []
  | fields :: rest => do some ((← tableSetting? fields) :: (← tableSettings? rest))

end

end Entry

namespace Fields

/-- Gives a key an entry, at the place of the key or behind the others. -/
def set (key : String) (e : Entry) : Fields → Fields
  | [] => [(key, e)]
  | (k, old) :: rest => if key = k then (key, e) :: rest else (k, old) :: set key e rest

theorem get?_set (key j : String) (e : Entry) (fields : Fields) :
    Entries.get? j (set key e fields) = if j = key then some e else Entries.get? j fields := by
  induction fields with
  | nil => simp [set, Entries.get?]
  | cons f rest ih =>
    obtain ⟨k, old⟩ := f
    by_cases hk : key = k
    · subst hk
      by_cases hj : j = key <;> simp [set, Entries.get?, hj]
    · by_cases hj : j = k
      · have : j ≠ key := fun h => hk (h ▸ hj)
        simp [set, Entries.get?, hk, hj, Ne.symm hk]
      · simp [set, Entries.get?, hk, hj, ih]

/-- Gives a key an entry behind the others. -/
def setLast (key : String) (e : Entry) (fields : Fields) : Fields :=
  fields.filter (fun f => f.1 ≠ key) ++ [(key, e)]

/-- The tables on the way of a header or of a key with points. -/
inductive Way where
  | ofHeader
  | ofKey
deriving DecidableEq

/-- What a table is there for when the way makes it. -/
def Way.origin : Way → Origin
  | ofHeader => .implied
  | ofKey => .dotted

/-- Goes through tables, makes those that are missing and changes the last one. The last of several
tables with one header counts. Points do not go into a table with a header of its own, and nothing
goes into one in braces. -/
def descend (way : Way) (change : Origin → Fields → Option Fields) (origin : Origin)
    (fields : Fields) : KeyPath → Option Fields
  | [] => change origin fields
  | key :: path =>
    match Entries.get? key fields with
    | none => do
      let inner ← descend way change way.origin [] path
      some (set key (.table way.origin inner) fields)
    | some (.table origin inner) =>
      if origin = .closed ∨ way = .ofKey ∧ origin = .header then none
      else do
        let inner ← descend way change origin inner path
        some (set key (.table origin inner) fields)
    | some (.tables (last :: earlier)) => do
      let last ← descend way change .header last path
      some (set key (.tables (last :: earlier)) fields)
    | some _ => none

/-- Gives a key its first value. Only tables that are there by the points of a key get more of
them. -/
def give (key : String) (isPlain : Bool) (e : Entry) (origin : Origin) (fields : Fields) :
    Option Fields :=
  if isPlain == decide (origin = .dotted) || (Entries.get? key fields).isSome then none
  else some (set key e fields)

/-- Gives the key at the end of a path a value. -/
def assign (path : KeyPath) (e : Entry) (origin : Origin) (fields : Fields) : Option Fields :=
  match path.getLast? with
  | none => none
  | some key => descend .ofKey (give key (path.length = 1) e) origin fields path.dropLast

/-- Opens a table that is not there, or that has no header yet; that one goes behind the others. -/
def openTable (key : String) (fields : Fields) : Option Fields :=
  match Entries.get? key fields with
  | none => some (set key (.table .header []) fields)
  | some (.table .implied inner) => some (setLast key (.table .header inner) fields)
  | some _ => none

/-- Opens one more table of a header that stands for several. -/
def openNext (key : String) (fields : Fields) : Option Fields :=
  match Entries.get? key fields with
  | none => some (set key (.tables [[]]) fields)
  | some (.tables all) => some (set key (.tables ([] :: all)) fields)
  | some _ => none

/-- Opens a table at the end of the path of a header. -/
def openAt (opening : String → Fields → Option Fields) (path : KeyPath) (fields : Fields) :
    Option Fields :=
  match path.getLast? with
  | none => none
  | some key => descend .ofHeader (fun _ => opening key) .header fields path.dropLast

end Fields

end Workflow.Toml
