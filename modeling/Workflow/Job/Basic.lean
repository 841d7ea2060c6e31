import Workflow.Json.Value
import Workflow.Registry

/-!
Jobs and their tables. A job is one invocation with its argument values; links to other jobs go
by id. A table may hold a job under a key that is not the job's own id.
-/

namespace Workflow

abbrev JobId := Nat

/-- The key of an argument; the one argument of a batch maps lists to elements. -/
inductive ArgKey where
  | name (n : String)
  | bindings (m : SortedMap String String)
deriving DecidableEq

structure Job where
  id : JobId
  worker : String
  keys : List ArgKey
  values : List Value
  parent : Option JobId
  branches : Option (List JobId)
  next : Option JobId
deriving DecidableEq

namespace Job

/-- A structural job has no work of its own. -/
def isStructural (j : Job) : Bool := isStructuralName j.worker

/-- The arguments that have a name; of two with one name the later stays. -/
def namedArgs (j : Job) : SortedMap String Value :=
  SortedMap.ofList ((j.keys.zip j.values).filterMap fun (key, value) =>
    match key with
    | .name n => some (n, value)
    | .bindings _ => none)

end Job

abbrev Table := SortedMap JobId Job

namespace Table

/-- Every job under its own id; of two with one id the later stays. -/
def ofJobs (jobs : List Job) : Table := SortedMap.ofList (jobs.map fun j => (j.id, j))

def jobs (t : Table) : List Job := SortedMap.values t

/-- The first job without a parent. -/
def root? (t : Table) : Option Job := t.jobs.find? fun j => j.parent.isNone

end Table

end Workflow
