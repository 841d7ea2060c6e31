import Workflow.Plan.Basic
import Workflow.Run.Counters

/-!
Running a plan. A job's own work goes through a queue into a bounded set of units in flight.
When it is done its branches start; when everything below it is done its successor starts, and
when a chain ends its owner is told. A failed unit ends its chain as failed: neither its branches
nor its successor start, and the branches beside it go on.

The machine steps by itself while it has events to handle or room to dispatch. Otherwise it waits
for one of the units in flight to end, and whoever drives it says which and how.
-/

namespace Workflow

inductive Status where
  | initialized
  | queued
  | running
  | complete
  | failed
deriving DecidableEq

def Status.text : Status → String
  | initialized => "initialized"
  | queued => "queued"
  | running => "running"
  | complete => "complete"
  | failed => "failed"

namespace Run

inductive Event where
  | start (id : JobId)
  | workDone (id : JobId) (failed : Bool)
  | subtreeDone (id : JobId) (failed : Bool)
  /-- The chain under an owner ended; the chain of the root has none. -/
  | chainEnd (owner : Option JobId) (failed : Bool)
deriving DecidableEq

/-- What was asked of the counters. -/
inductive CounterCall where
  | arm (id : JobId) (branches : Nat)
  | complete (id : JobId) (last : Bool)
deriving DecidableEq

/-- A dispatched unit of work, the `number`-th from 0. -/
structure Flight where
  number : Nat
  id : JobId
deriving DecidableEq

structure State where
  statuses : SortedMap JobId Status
  /-- Owners of a chain that failed. -/
  failedOwners : List JobId
  events : List Event
  queue : List JobId
  inFlight : List Flight
  dispatched : List JobId
  counters : Counters
  calls : List CounterCall
  /-- Set when the chain of the root ends; true when it failed. -/
  finished : Option Bool
deriving DecidableEq

def init (p : Plan) : State where
  statuses := SortedMap.ofList (p.table.keys.map fun id => (id, .initialized))
  failedOwners := []
  events := [.start p.root]
  queue := []
  inFlight := []
  dispatched := []
  counters := Counters.ofSize p.size
  calls := []
  finished := none

namespace State

def mark (s : State) (id : JobId) (status : Status) : State :=
  { s with statuses := s.statuses.insert id status }

def post (s : State) (es : List Event) : State := { s with events := s.events ++ es }

def start (p : Plan) (s : State) (id : JobId) : State :=
  if p.isStructural id then (s.mark id .running).post [.workDone id false]
  else { s.mark id .queued with queue := s.queue ++ [id] }

def workDone (p : Plan) (s : State) (id : JobId) (failed : Bool) : State :=
  if failed then (s.mark id .failed).post [.chainEnd (p.parent? id) true]
  else
    let s := if p.isStructural id then s else s.mark id .complete
    match p.branches id with
    | [] => s.post [.subtreeDone id false]
    | ids =>
      { s with
        counters := s.counters.arm id ids.length
        calls := s.calls ++ [CounterCall.arm id ids.length] }.post (ids.map .start)

def subtreeDone (p : Plan) (s : State) (id : JobId) (failed : Bool) : State :=
  let s := if p.isStructural id then s.mark id (if failed then .failed else .complete) else s
  match p.next? id, failed with
  | some next, false => s.post [.start next]
  | _, _ => s.post [.chainEnd (p.parent? id) failed]

def chainEnd (s : State) (owner : Option JobId) (failed : Bool) : State :=
  match owner with
  | none => { s with finished := some failed }
  | some id =>
    let owners := if failed then id :: s.failedOwners else s.failedOwners
    let (last, counters) := s.counters.complete id
    let s := { s with failedOwners := owners, counters, calls := s.calls ++ [CounterCall.complete id last] }
    if last then s.post [.subtreeDone id (id ∈ owners)] else s

def handle (p : Plan) (s : State) : Event → State
  | .start id => s.start p id
  | .workDone id failed => s.workDone p id failed
  | .subtreeDone id failed => s.subtreeDone p id failed
  | .chainEnd owner failed => s.chainEnd owner failed

def dispatch (s : State) (id : JobId) : State :=
  { s.mark id .running with
    inFlight := s.inFlight ++ [⟨s.dispatched.length, id⟩]
    dispatched := s.dispatched ++ [id] }

/-- The machine's own next step, events before dispatches; `none` when it waits. -/
def step? (p : Plan) (limit : Nat) (s : State) : Option State :=
  match s.events with
  | e :: rest => some ({ s with events := rest }.handle p e)
  | [] =>
    if s.inFlight.length < max limit 1 then
      match s.queue with
      | [] => none
      | id :: rest =>
        let s := { s with queue := rest }
        some (if (p.get? id).isSome then s.dispatch id else s)
    else none

/-- A unit in flight ends. -/
def finish (s : State) (f : Flight) (failed : Bool) : State :=
  { s with inFlight := s.inFlight.erase f }.post [.workDone f.id failed]

end State

/-- One move of a run in which every unit in flight may be the next to end, with the outcome that
`fails` tells for its job. -/
inductive Move (p : Plan) (limit : Nat) (fails : JobId → Bool) : State → State → Prop where
  | own {s t : State} (h : s.step? p limit = some t) : Move p limit fails s t
  | ending {s : State} {f : Flight} (hw : s.step? p limit = none) (hf : f ∈ s.inFlight) :
    Move p limit fails s (s.finish f (fails f.id))

/-- The states that a run can come to. -/
inductive Reachable (p : Plan) (limit : Nat) (fails : JobId → Bool) : State → Prop where
  | init : Reachable p limit fails (init p)
  | move {s t : State} (hs : Reachable p limit fails s) (h : Move p limit fails s t) :
    Reachable p limit fails t

/-- A run is over when the machine waits and nothing is in flight. -/
def State.IsOver (p : Plan) (limit : Nat) (s : State) : Prop :=
  s.step? p limit = none ∧ s.inFlight = []

/-- Whether a run that is over went well. -/
def State.succeeded (s : State) : Bool := s.finished == some false

end Run

end Workflow
