import Workflow.Text.OrderMark
import Workflow.Toml.Value

/-!
Documents of TOML: headers, which open tables, and entries of the table that is open.
-/

namespace Workflow.Toml

inductive Line where
  /-- Opens a table. -/
  | header (path : KeyPath)
  /-- Opens one more of several tables. -/
  | next (path : KeyPath)
  /-- Gives a key of the open table a value. -/
  | entry (path : KeyPath) (value : Entry)

/-- A header behind its first bracket; two brackets stand side by side. -/
def header : Reader Line
  | '[' :: rest => do
    let (path, rest) ← keyPath rest
    some (.next path, ← endLine? (← Text.after? [']', ']'] rest))
  | cs => do
    let (path, rest) ← keyPath cs
    some (.header path, ← endLine? (← Text.after? [']'] rest))

/-- One line that says something. -/
def readLine : Reader Line
  | '[' :: rest => header rest
  | cs => do
    let ((path, e), rest) ← entry (value deepest) cs
    some (.entry path e, ← endLine? rest)

/-- Reads every line; each takes a character, so the length of the text bounds their number. -/
def readLines : (fuel : Nat) → List Char → Option (List Line)
  | 0, _ => none
  | fuel + 1, cs =>
    match skipLines cs with
    | [] => some []
    | cs => do
      let (line, rest) ← readLine cs
      some (line :: (← readLines fuel rest))

/-- A document under way: its fields, and the path of the table that is open. -/
structure Draft where
  fields : Fields
  current : KeyPath

namespace Draft

def empty : Draft := ⟨[], []⟩

def add (d : Draft) : Line → Option Draft
  | .header path => (Fields.openAt Fields.openTable path d.fields).map fun f => ⟨f, path⟩
  | .next path => (Fields.openAt Fields.openNext path d.fields).map fun f => ⟨f, path⟩
  | .entry path e => do
    let fields ← Fields.descend .ofHeader (Fields.assign path e) .header d.fields d.current
    some { d with fields }

end Draft

/-- The fields of a document, `none` when it is not well formed or stands for a moment. -/
def parse? (text : String) : Option (List (String × Setting)) := do
  let cs := Text.skipOrderMark text.toList
  let ls ← readLines (cs.length + 1) cs
  let d ← ls.foldlM Draft.add Draft.empty
  match ← Entry.tableSetting? d.fields with
  | .table fields => some fields
  | _ => none

end Workflow.Toml
