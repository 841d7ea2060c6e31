import Workflow.Job.Basic

/-!
What makes a table a plan that can be run: ids from 1 without gaps, one root, links that stay
inside the table, parents before their children, and chains of `next` without forks or cycles.
-/

namespace Workflow

inductive PlanError where
  | empty
  | idGap (expected found : JobId)
  | rootCount (found : Nat)
  | dangling (id target : JobId)
  | argLengths (id : JobId) (keys values : Nat)
  | notPreOrder (id parent : JobId)
  | noBranches (id : JobId)
  | foreignBranch (id child : JobId) (parent : Option JobId)
  | crossLink (id next : JobId)
  | reachedTwice (id : JobId)
  /-- Jobs that some job is followed by, though no chain that starts somewhere leads to them. -/
  | cyclic (ids : List JobId)
deriving DecidableEq

namespace PlanError

def parentText : Option JobId → String
  | none => "None"
  | some id => s!"Some({id})"

def brokenChainText (id : JobId) : String :=
  s!"Record {id} is reached by more than one next_id or sits in a cycle"

/-- The message of an error; where several jobs are on cycles, none is singled out. -/
def message? : PlanError → Option String
  | empty => some "Graph is empty"
  | idGap expected found =>
    some s!"Record ids must run 1..N without gaps: expected {expected}, found {found}"
  | rootCount found => some s!"Graph must have exactly one root, found {found}"
  | dangling id target => some s!"Record {id} refers to missing record {target}"
  | argLengths id keys values =>
    some s!"Record {id} has {keys} argument keys but {values} values"
  | notPreOrder id parent => some s!"Record {id} was numbered before its parent {parent}"
  | noBranches id => some s!"Record {id} lists an empty children_ids"
  | foreignBranch id child parent =>
    some s!"Record {id} lists child {child}, whose parent is {parentText parent}"
  | crossLink id next => some s!"Record {id} continues to {next}, which has a different parent"
  | reachedTwice id => some (brokenChainText id)
  | cyclic [id] => some (brokenChainText id)
  | cyclic _ => none

end PlanError

/-- The ids must be the numbers that follow `last`. -/
def checkIds (last : JobId) : List JobId → Except PlanError Unit
  | [] => .ok ()
  | id :: rest => if id = last + 1 then checkIds id rest else .error (.idGap (last + 1) id)

def checkParent (t : Table) (j : Job) : Except PlanError Unit :=
  match j.parent with
  | none => .ok ()
  | some parent =>
    if ! t.contains parent then .error (.dangling j.id parent)
    else if j.id ≤ parent then .error (.notPreOrder j.id parent)
    else .ok ()

/-- Every branch that a job lists must be a job whose parent it is. -/
def checkListed (t : Table) (id : JobId) : List JobId → Except PlanError Unit
  | [] => .ok ()
  | child :: rest =>
    match t.get? child with
    | none => .error (.dangling id child)
    | some j =>
      if j.parent = some id then checkListed t id rest
      else .error (.foreignBranch id child j.parent)

def checkBranches (t : Table) (j : Job) : Except PlanError Unit :=
  match j.branches with
  | none => .ok ()
  | some [] => .error (.noBranches j.id)
  | some ids => checkListed t j.id ids

/-- Adds what follows a job to the jobs that are known to follow one. -/
def checkNext (t : Table) (followers : List JobId) (j : Job) : Except PlanError (List JobId) :=
  match j.next with
  | none => .ok followers
  | some next =>
    match t.get? next with
    | none => .error (.dangling j.id next)
    | some target =>
      if target.parent ≠ j.parent then .error (.crossLink j.id next)
      else if next ∈ followers then .error (.reachedTwice next)
      else .ok (followers ++ [next])

/-- Checks jobs in key order; the answer is every job that follows another. -/
def checkJobs (t : Table) (followers : List JobId) : List Job → Except PlanError (List JobId)
  | [] => .ok followers
  | j :: rest => do
    if j.keys.length ≠ j.values.length then
      throw (.argLengths j.id j.keys.length j.values.length)
    checkParent t j
    checkBranches t j
    checkJobs t (← checkNext t followers j) rest

/-- The jobs on the chain of `next` from a job on, as many as `steps` and one. -/
def chainFrom (t : Table) : (steps : Nat) → JobId → List JobId
  | 0, id => [id]
  | steps + 1, id =>
    match (t.get? id).bind Job.next with
    | none => [id]
    | some next => id :: chainFrom t steps next

/-- The followers to which no chain from a first job leads. A chain from a first job never comes
back to itself, so the size of the table bounds its length. -/
def unreached (t : Table) (followers : List JobId) : List JobId :=
  let firsts := t.jobs.filter fun j => j.next.isSome && j.id ∉ followers
  let reached := firsts.flatMap fun j => chainFrom t t.size j.id
  followers.filter fun id => id ∉ reached

/-- Checks a table; the answer is the id of its root. -/
def checkTable (t : Table) : Except PlanError JobId := do
  if t.isEmpty then throw .empty
  checkIds 0 t.keys
  let roots := t.jobs.filter fun j => j.parent.isNone
  match roots with
  | [root] =>
    let followers ← checkJobs t [] t.jobs
    match unreached t followers with
    | [] => pure root.id
    | ids => throw (.cyclic ids)
  | _ => throw (.rootCount roots.length)

end Workflow
