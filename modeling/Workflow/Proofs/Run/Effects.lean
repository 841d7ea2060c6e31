import Workflow.Proofs.Run.Simulation

/-!
What the handling of an event changes: one equation for every plan, state and event. Each field of
the new state is the old one with something added, and what is added is told field by field.
-/

namespace Workflow

namespace Run

namespace Event

/-- The job whose own progress an event tells; a chain that ends is none of its owner's. -/
def job? : Event → Option JobId
  | .start id | .workDone id _ | .subtreeDone id _ => some id
  | .chainEnd _ _ => none

/-- What the handling of an event posts, whatever the state is. -/
@[simp] def replies (p : Plan) : Event → List Event
  | .start id => if p.isStructural id then [.workDone id false] else []
  | .workDone id true => [.chainEnd (p.parent? id) true]
  | .workDone id false =>
    if p.branches id = [] then [.subtreeDone id false] else (p.branches id).map .start
  | .subtreeDone id true => [.chainEnd (p.parent? id) true]
  | .subtreeDone id false =>
    match p.next? id with
    | some next => [.start next]
    | none => [.chainEnd (p.parent? id) false]
  | .chainEnd _ _ => []

@[simp] def queues (p : Plan) : Event → List JobId
  | .start id => if p.isStructural id then [] else [id]
  | .workDone _ _ | .subtreeDone _ _ | .chainEnd _ _ => []

@[simp] def marks (p : Plan) : Event → List (JobId × Status)
  | .start id => [(id, if p.isStructural id then .running else .queued)]
  | .workDone id true => [(id, .failed)]
  | .workDone id false => if p.isStructural id then [] else [(id, .complete)]
  | .subtreeDone id failed =>
    if p.isStructural id then [(id, if failed then .failed else .complete)] else []
  | .chainEnd _ _ => []

/-- The owner of a chain that failed. -/
@[simp] def blames : Event → List JobId
  | .chainEnd (some o) true => [o]
  | .start _ | .workDone _ _ | .subtreeDone _ _ | .chainEnd _ _ => []

/-- How the run ends, if it ends with the event. -/
@[simp] def verdict? : Event → Option Bool
  | .chainEnd none failed => some failed
  | .start _ | .workDone _ _ | .subtreeDone _ _ | .chainEnd _ _ => none

end Event

/-- What a call makes of counters. -/
@[simp] def CounterCall.apply (c : Counters) : CounterCall → Counters
  | .arm id n => c.arm id n
  | .complete id _ => (c.complete id).2

namespace State

/-- The end of all under an owner, posted when the last chain there ends. -/
@[simp] def closes (s : State) : Event → List Event
  | .chainEnd (some o) failed =>
    if (s.counters.complete o).1 then [.subtreeDone o (failed || decide (o ∈ s.failedOwners))]
    else []
  | .start _ | .workDone _ _ | .subtreeDone _ _ | .chainEnd none _ => []

/-- What is asked of the counters. -/
@[simp] def asks (p : Plan) (s : State) : Event → List CounterCall
  | .workDone id false => if p.branches id = [] then [] else [.arm id (p.branches id).length]
  | .chainEnd (some o) _ => [.complete o (s.counters.complete o).1]
  | .start _ | .workDone _ true | .subtreeDone _ _ | .chainEnd none _ => []

end State

variable {p : Plan} {s : State} {id : JobId}

theorem handle_eq (p : Plan) (s : State) (e : Event) : s.handle p e =
    { s with
      statuses := s.statuses.insertAll (e.marks p)
      failedOwners := e.blames ++ s.failedOwners
      events := s.events ++ (e.replies p ++ s.closes e)
      queue := s.queue ++ e.queues p
      counters := (s.asks p e).foldl CounterCall.apply s.counters
      calls := s.calls ++ s.asks p e
      finished := e.verdict?.or s.finished } := by
  cases e with
  | start id =>
    cases hs : p.isStructural id <;>
      simp [State.handle, State.start, hs, State.mark, State.post, SortedMap.insertAll]
  | workDone id failed =>
    cases failed with
    | true => simp [State.handle, State.workDone, State.mark, State.post, SortedMap.insertAll]
    | false =>
      by_cases hb : p.branches id = []
      · cases hs : p.isStructural id <;>
          simp [State.handle, workDone_leaf, State.opened, hb, hs, SortedMap.insertAll]
      · cases hs : p.isStructural id <;>
          simp [State.handle, workDone_branches, State.opened, hb, hs, SortedMap.insertAll]
  | subtreeDone id failed =>
    cases hn : p.next? id <;> cases failed <;> cases hs : p.isStructural id <;>
      simp [State.handle, State.subtreeDone, hn, hs, State.mark, State.post, SortedMap.insertAll]
  | chainEnd owner failed =>
    cases owner with
    | none => simp [State.handle, State.chainEnd, SortedMap.insertAll]
    | some o =>
      cases hl : (s.counters.complete o).1 <;> cases failed <;>
        simp [State.handle, chainEnd_some, State.toldTo, hl, State.post, SortedMap.insertAll]

end Run

end Workflow
