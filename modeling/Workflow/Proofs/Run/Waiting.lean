import Mathlib.Logic.Function.Iterate
import Workflow.Proofs.Run.Statuses

/-!
What a run of a compiled plan holds in its hands when it waits for a unit of work to end. As many
units are in flight as there is room for, unless nothing is queued, and the statuses of jobs tell
exactly what is queued and what is in flight.
-/

namespace Workflow

namespace Run

variable {p : Plan} {limit : Nat} {fails : JobId → Bool} {st : JobId → Stage} {s t : State}
  {id : JobId}

/-- A move puts a unit in flight only where there is room. -/
theorem Move.inFlight_le (hm : Move p limit fails s t)
    (hs : s.inFlight.length ≤ max limit 1) : t.inFlight.length ≤ max limit 1 := by
  cases hm with
  | own hstep =>
    rcases step?_eq_some hstep with ⟨e, events, -, rfl⟩ | ⟨-, hroom, id, queue, -, rfl⟩
    · rw [handle_eq]
      exact hs
    · split
      · rw [State.dispatch, List.length_append]
        exact hroom
      · exact hs
  | ending _ hf => exact (List.length_erase_le).trans hs

/-- There are never more units in flight than there is room for, in a run of any plan. -/
theorem Reachable.inFlight_le (hs : Reachable p limit fails s) :
    s.inFlight.length ≤ max limit 1 := by
  induction hs with
  | init => exact Nat.zero_le _
  | move _ hm ih => exact hm.inFlight_le ih

theorem Stage.status_eq_queued_iff {x : Stage} {structural : Bool} :
    x.status structural = .queued ↔ x = .queued := by
  cases x with
  | waiting | closing failed => cases structural <;> simp [status]
  | telling e | told e =>
    cases e with
    | broken => simp [status]
    | settled failed => cases structural <;> cases failed <;> simp [status]
  | _ => simp [status]

/-- A job with a unit of work is running while the unit is in flight, and until its end is
handled. -/
theorem Stage.status_eq_running_iff {x : Stage} :
    x.status false = .running ↔ x = .flying ∨ ∃ failed, x = .worked failed := by
  cases x with
  | telling e | told e => cases e <;> simp [status]
  | _ => simp [status]

theorem Matches.mem_queue_iff (hc : Consistent p fails st) (hm : Matches p s st) :
    id ∈ s.queue ↔ s.statuses.get? id = some .queued := by
  rw [hm.pooled.queue, hm.statuses id]
  constructor
  · intro hst
    rw [if_pos (hc.mem_ids (by simp [hst])), hst]
    rfl
  · intro h
    split at h
    · exact Stage.status_eq_queued_iff.mp (Option.some.inj h)
    · cases h

/-- Where no event is left to be handled, what runs is in flight. -/
theorem Matches.mem_inFlight_iff (hc : Consistent p fails st) (hm : Matches p s st)
    (hevents : s.events = []) : id ∈ s.inFlight.map Flight.id ↔
      p.isStructural id = false ∧ s.statuses.get? id = some .running := by
  rw [hm.pooled.flights, hm.statuses id]
  constructor
  · intro hst
    have hs : p.isStructural id = false := by simpa [hst, Stage.Fits] using hc.fits id
    rw [if_pos (hc.mem_ids (by simp [hst])), hst]
    exact ⟨hs, rfl⟩
  · intro h
    obtain ⟨hs, hstatus⟩ := h
    split at hstatus
    · rename_i hid
      rw [hs] at hstatus
      rcases Stage.status_eq_running_iff.mp (Option.some.inj hstatus) with hst | ⟨failed, hst⟩
      · exact hst
      · have hev := hm.event?_of_events_nil hevents hid
        rw [hst] at hev
        cases hev
    · cases hstatus

/-- Whenever a run of a compiled plan waits, there is no room for another unit in flight, or nothing
is queued. The jobs whose status is queued are those in the queue, and the jobs with a unit of work
whose status is running are those in flight, each of them once. -/
theorem waiting_filled {r : Registry} {args : Scope} {n : Node}
    (h : compile r args n = .ok p.table) (hs : Reachable p limit fails s)
    (hw : s.step? p limit = none) :
    s.inFlight.length ≤ max 1 limit ∧ (s.inFlight.length < max 1 limit → s.queue = []) ∧
    (s.queue.Nodup ∧ ∀ id, id ∈ s.queue ↔ s.statuses.get? id = some .queued) ∧
    (s.inFlight.map Flight.id).Nodup ∧
    ∀ id, id ∈ s.inFlight.map Flight.id ↔
      p.isStructural id = false ∧ s.statuses.get? id = some .running := by
  obtain ⟨st, hc, hm⟩ := reachable_matches (Plan.branching_of_compile h) hs
  obtain ⟨hevents, hroom⟩ := step?_eq_none hw
  rw [max_comm 1 limit]
  exact ⟨hs.inFlight_le, hroom, ⟨hm.pooled.queue_nodup, fun id => hm.mem_queue_iff hc⟩,
    hm.pooled.flights_nodup, fun id => hm.mem_inFlight_iff hc hevents⟩

/-- The machine's own steps, one after another, are moves of a run. -/
theorem Reachable.steps (hs : Reachable p limit fails s) (count : Nat)
    (h : (fun x : Option State => x.bind (State.step? p limit))^[count] (some s) = some t) :
    Reachable p limit fails t := by
  induction count generalizing t with
  | zero =>
    obtain rfl := Option.some.inj h
    exact hs
  | succ count ih =>
    rw [Function.iterate_succ_apply'] at h
    obtain ⟨u, hu, hstep⟩ := Option.bind_eq_some_iff.mp h
    exact (ih hu).move (.own hstep)

/-- With room for one unit, the first notification of the second branch waits in the queue while
that of the first is in flight. -/
theorem notifyPlan_waiting : ∃ s, Reachable notifyPlan 1 (fun _ => false) s ∧
    s.step? notifyPlan 1 = none ∧ s.inFlight.map Flight.id = [3] ∧ s.queue = [6] ∧
    s.statuses.get? 3 = some .running ∧ s.statuses.get? 6 = some .queued := by
  have hrun : ((fun x : Option State => x.bind (State.step? notifyPlan 1))^[9]
      (some (Run.init notifyPlan))).map (fun s =>
        (decide (s.step? notifyPlan 1 = none), s.inFlight.map Flight.id, s.queue)) =
      some (true, [3], [6]) := by
    decide +kernel
  obtain ⟨s, hsteps, hend⟩ := Option.map_eq_some_iff.mp hrun
  obtain ⟨hw, hrest⟩ := Prod.mk.inj hend
  obtain ⟨hflights, hqueue⟩ := Prod.mk.inj hrest
  have hw : s.step? notifyPlan 1 = none := of_decide_eq_true hw
  have hreach : Reachable notifyPlan 1 (fun _ => false) s := Reachable.init.steps 9 hsteps
  obtain ⟨-, -, ⟨-, hqueued⟩, -, hflying⟩ := waiting_filled notifyJobs_compiled hreach hw
  refine ⟨s, hreach, hw, hflights, hqueue, ((hflying 3).mp ?_).2, (hqueued 6).mp ?_⟩
  · rw [hflights]
    exact List.mem_singleton_self 3
  · rw [hqueue]
    exact List.mem_singleton_self 6

end Run

end Workflow
