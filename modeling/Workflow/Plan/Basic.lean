import Workflow.Plan.Check

/-!
A plan is a table that passed the check. It answers how a run moves through it: what starts once
a job's own work is done, and what follows when everything below the job is done.
-/

namespace Workflow

structure Plan where
  table : Table
  root : JobId
  accepted : checkTable table = .ok root

namespace Plan

def ofTable (t : Table) : Except PlanError Plan :=
  match h : checkTable t with
  | .ok root => .ok ⟨t, root, h⟩
  | .error e => .error e

def get? (p : Plan) (id : JobId) : Option Job := p.table.get? id

def size (p : Plan) : Nat := p.table.size

/-- The first job directly under a branch of a batch. -/
def entry? (p : Plan) (id : JobId) : Option JobId :=
  match p.get? id with
  | some j =>
    if j.worker = branchName then
      (p.table.jobs.find? fun k => k.parent = some id).map Job.id
    else none
  | none => none

/-- What starts once a job's own work is done: the branches that it lists, or for a branch of a
batch the first job of its body. -/
def branches (p : Plan) (id : JobId) : List JobId :=
  match p.get? id with
  | none => []
  | some j => j.branches.getD (p.entry? id).toList

def next? (p : Plan) (id : JobId) : Option JobId := (p.get? id).bind Job.next

def parent? (p : Plan) (id : JobId) : Option JobId := (p.get? id).bind Job.parent

def isStructural (p : Plan) (id : JobId) : Bool := (p.get? id).any Job.isStructural

/-- The ids of the jobs directly under an id. -/
def childIds (p : Plan) (id : JobId) : List JobId :=
  (p.table.jobs.filter fun j => j.parent = some id).map Job.id

/-- An id and everything under it, `levels` levels deep. -/
def descend (p : Plan) : (levels : Nat) → JobId → List JobId
  | 0, id => [id]
  | levels + 1, id => id :: (p.childIds id).flatMap (p.descend levels)

/-- A job and every job under it in id order. An id grows with every level, so there are no more
levels than jobs. -/
def subtree (p : Plan) (id : JobId) : List JobId :=
  if (p.get? id).isSome then (p.descend p.size id).mergeSort else []

end Plan

end Workflow
