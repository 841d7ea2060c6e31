import Workflow.Run.Machine

/-!
A run in virtual time. Every unit of work takes the time that a script gives it, and time moves
only when the machine waits: the unit that is due first ends, of two due together the one that
was dispatched first.
-/

namespace Workflow.Run

/-- How one unit of work goes: how long it takes and whether it breaks. -/
structure Cue where
  after : Nat
  breaks : Bool

structure Script where
  /-- The cue of the n-th unit dispatched; units behind the list take no time and do not break. -/
  cues : List Cue
  /-- Workers whose units always fail. -/
  failing : List String

namespace Script

def cue (sc : Script) (number : Nat) : Cue := sc.cues[number]?.getD ⟨0, false⟩

def fails (sc : Script) (p : Plan) (f : Flight) : Bool :=
  (sc.cue f.number).breaks || (p.get? f.id).any fun j => sc.failing.contains j.worker

end Script

/-- A machine with a clock and the times at which its units are due, in dispatch order. -/
structure Timed where
  state : State
  now : Nat
  due : List Nat

namespace Timed

def init (p : Plan) : Timed := ⟨Run.init p, 0, []⟩

def dueAt (t : Timed) (f : Flight) : Nat := t.due[f.number]?.getD t.now

/-- The unit of a list that is due first, the earliest in the list among equals. -/
def first (t : Timed) : List Flight → Option Flight
  | [] => none
  | f :: rest =>
    match t.first rest with
    | none => some f
    | some g => if t.dueAt g < t.dueAt f then some g else some f

/-- The state after a step of the machine, with a due time for each new unit. -/
def advance (sc : Script) (t : Timed) (s : State) : Timed :=
  let new := (List.range s.dispatched.length).drop t.due.length
  ⟨s, t.now, t.due ++ new.map fun n => t.now + (sc.cue n).after⟩

/-- The next moment of a run; `none` when it is over. -/
def tick? (p : Plan) (limit : Nat) (sc : Script) (t : Timed) : Option Timed :=
  match t.state.step? p limit with
  | some s => some (t.advance sc s)
  | none =>
    match t.first t.state.inFlight with
    | none => none
    | some f => some ⟨t.state.finish f (sc.fails p f), max t.now (t.dueAt f), t.due⟩

/-- Goes on until the run is over; `none` after more moments than the bound. -/
def runUpTo (p : Plan) (limit : Nat) (sc : Script) : (bound : Nat) → Timed → Option State
  | 0, _ => none
  | bound + 1, t =>
    match t.tick? p limit sc with
    | none => some t.state
    | some t' => runUpTo p limit sc bound t'

end Timed

/-- More moments than a run can have. What comes after a start takes a few moments of its own and
then, at worst, as long as all branches of its job together, and nothing that a job waits for
waits for that job. -/
def bound (p : Plan) : Nat :=
  let listed := p.table.keys.foldr (fun id n => (p.branches id).length + n) 0
  Nat.pow (listed + 7) (2 * p.size + 2)

/-- Runs a plan by a script with at most `limit` units in flight; `none` if it has no end. -/
def runScript (p : Plan) (limit : Nat) (sc : Script) : Option State :=
  Timed.runUpTo p limit sc (bound p) (Timed.init p)

/-- What was handed out, in order: workers with their values. -/
def State.handedOut (p : Plan) (s : State) : List (String × List Value) :=
  s.dispatched.filterMap fun id => (p.get? id).map fun j => (j.worker, j.values)

end Workflow.Run
