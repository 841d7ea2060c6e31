import Workflow.Job.Basic

/-!
Counters of the branches that jobs still wait for. The counter of id `n` is the `n`-th from 1;
other ids have none.
-/

namespace Workflow

structure Counters where
  counts : List Nat
deriving DecidableEq

namespace Counters

/-- Counters for the ids from 1 to `size`, all at zero. -/
def ofSize (size : Nat) : Counters := ⟨List.replicate size 0⟩

def get? (c : Counters) : JobId → Option Nat
  | 0 => none
  | id + 1 => c.counts[id]?

def set (c : Counters) (id : JobId) (n : Nat) : Counters :=
  match id with
  | 0 => c
  | id + 1 => ⟨c.counts.set id n⟩

/-- Lets an id wait for `n` branches. -/
def arm (c : Counters) (id : JobId) (n : Nat) : Counters := c.set id n

/-- Counts one finished branch of an id; true when it was the last one awaited. -/
def complete (c : Counters) (id : JobId) : Bool × Counters :=
  match c.get? id with
  | some (n + 1) => (n == 0, c.set id n)
  | _ => (false, c)

def outstanding (c : Counters) (id : JobId) : Nat := (c.get? id).getD 0

end Counters

end Workflow
