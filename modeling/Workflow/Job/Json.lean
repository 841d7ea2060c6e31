import Workflow.Job.Basic
import Workflow.Json.Record

/-!
The JSON form of jobs and tables, written and read.
-/

namespace Workflow

def maxId : Nat := 4294967296

namespace ArgKey

def toValue : ArgKey → Value
  | name n => .string n
  | bindings m => Value.ofMap .string m

def ofValue? : Value → Option ArgKey
  | .string s => some (name s)
  | .object fields =>
    (fields.mapM fun (e : String × Value) => e.2.string?.map (e.1, ·)).map fun pairs =>
      bindings (SortedMap.ofList pairs)
  | _ => none

end ArgKey

namespace Job

def idValue (id : Option JobId) : Value :=
  match id with
  | some n => .nat n
  | none => .null

def toValue (j : Job) : Value :=
  .object ([("subjob_id", .nat j.id), ("subworker_class", .string j.worker),
    ("arg_keys", .array (j.keys.map ArgKey.toValue)), ("arg_values", .array j.values),
    ("parent_id", idValue j.parent)] ++
    Value.present [("children_ids", j.branches.map fun ids => .array (ids.map .nat)),
      ("next_id", j.next.map .nat)])

/-- An array stops behind the parent at the earliest. -/
def layout : Layout :=
  ⟨["subjob_id", "subworker_class", "arg_keys", "arg_values", "parent_id"],
    ["children_ids", "next_id"]⟩

/-- A field that may be null or missing. -/
def optional? {α : Type} (f : Value → Option α) (v : Value) (name : String) : Option (Option α) :=
  match v.part? layout name with
  | none => some none
  | some .null => some none
  | some w => (f w).map some

def readId (v : Value) : Option JobId := v.natBelow? maxId

def ofValue? (v : Value) : Option Job := do
  guard (layout.admits v)
  let id ← (v.part? layout "subjob_id").bind readId
  let worker ← (v.part? layout "subworker_class").bind Value.string?
  let keys ← ((v.part? layout "arg_keys").bind Value.items?).bind (·.mapM ArgKey.ofValue?)
  let values ← (v.part? layout "arg_values").bind Value.items?
  let parent ← optional? readId v "parent_id"
  let branches ← optional? (fun w => w.items?.bind (·.mapM readId)) v "children_ids"
  let next ← optional? readId v "next_id"
  some ⟨id, worker, keys, values, parent, branches, next⟩

end Job

namespace Table

def idText (id : JobId) : String := toString id

/-- The id that a decimal text stands for, without sign or leading zeros. -/
def idOfText? (s : String) : Option JobId :=
  let ds := s.toList
  if ds.isEmpty || ! ds.all Char.isDigit then none
  else
    let n := ds.foldl (fun n d => n * 10 + (d.toNat - '0'.toNat)) 0
    if n < maxId ∧ idText n = s then some n else none

def toValue (t : Table) : Value :=
  .object (t.entries.map fun (id, j) => (idText id, j.toValue))

def ofValue? (v : Value) : Option Table := do
  let fields ← v.fields?
  let entries ← fields.mapM fun (k, w) => do
    let id ← idOfText? k
    let j ← Job.ofValue? w
    some (id, j)
  some (SortedMap.ofList entries)

end Table

end Workflow
