import Workflow.Proofs.Run.Agreement
import Workflow.Proofs.Run.History

/-!
The statuses of jobs in a run only go forward. Each move of a run leaves the status of a job as it
is or takes it one step further, and the last step of a job is complete or failed. When a run is
over, no job is left on the way.
-/

namespace Workflow

namespace Status

/-- What the status of a job may be after another. A structural job has no unit of work that could
wait in the queue. -/
inductive Precedes (structural : Bool) : Status → Status → Prop
  | queue (h : structural = false) : Precedes structural initialized queued
  | dispatch (h : structural = false) : Precedes structural queued running
  | open (h : structural = true) : Precedes structural initialized running
  | complete : Precedes structural running complete
  | fail : Precedes structural running failed

def isTerminal : Status → Bool
  | complete | failed => true
  | initialized | queued | running => false

variable {structural : Bool} {x y : Status}

/-- Nothing comes after the status of a job that has ended. -/
theorem Precedes.not_terminal (h : Precedes structural x y) : x.isTerminal = false := by
  cases h <;> rfl

theorem eq_of_terminal (hx : x.isTerminal = true)
    (h : Relation.ReflTransGen (Precedes structural) x y) : y = x := by
  rcases Relation.ReflTransGen.cases_head h with heq | ⟨z, hz, -⟩
  · exact heq.symm
  · have hopen := hz.not_terminal
    rw [hx] at hopen
    cases hopen

end Status

/-- What the statuses of a job do in a run between two states. -/
abbrev Plan.Onward (p : Plan) (id : JobId) : Status → Status → Prop :=
  Relation.ReflTransGen (Status.Precedes (p.isStructural id))

namespace Run

variable {p : Plan} {fails : JobId → Bool} {st st' : JobId → Stage} {limit : Nat} {s t : State}
  {id : JobId} {x : Stage}

/-! ### Stages -/

/-- The status of a job at a stage is that at another, or comes right behind it. -/
def Stage.Forward (structural : Bool) (x y : Stage) : Prop :=
  Relation.ReflGen (Status.Precedes structural) (x.status structural) (y.status structural)

theorem Stage.Forward.of_eq {structural : Bool} {x y : Stage}
    (h : y.status structural = x.status structural) : x.Forward structural y := by
  rw [Stage.Forward, h]

theorem Stage.Forward.step {structural : Bool} {x y : Stage}
    (h : Status.Precedes structural (x.status structural) (y.status structural)) :
    x.Forward structural y := .single h

/-- Where one job goes forward and no other changes its status, all go forward. -/
theorem forward_update
    (hst : ∀ k, (st' k).status (p.isStructural k) = (st k).status (p.isStructural k))
    (hx : (st id).Forward (p.isStructural id) x) (k : JobId) :
    (st k).Forward (p.isStructural k) (Function.update st' id x k) := by
  by_cases hk : k = id
  · subst hk
    rwa [Function.update_self]
  · rw [Function.update_of_ne hk]
    exact .of_eq (hst k)

/-- Where one job goes forward from a stage it is known to be at, and no other changes, all go
forward. -/
theorem forward_single {y : Stage} (hst : st id = x) (h : x.Forward (p.isStructural id) y)
    (k : JobId) : (st k).Forward (p.isStructural k) (Function.update st id y k) :=
  forward_update (fun _ => rfl) (by rwa [hst]) k

theorem status_callAll {ids : List JobId} (h : Fresh p st ids) (k : JobId) :
    (callAll ids st k).status (p.isStructural k) = (st k).status (p.isStructural k) :=
  h.apply_callAll (·.status (p.isStructural k)) rfl k

/-- When a job advances, the status of each job stays or goes one step forward. -/
theorem Advance.forward (hp : p.Branching) (hc : Consistent p fails st)
    (ha : Advance p fails st st') (k : JobId) : (st k).Forward (p.isStructural k) (st' k) := by
  cases ha with
  | @start id hst =>
    refine forward_single hst ?_ k
    cases hs : p.isStructural id with
    | true => exact .step (.open rfl)
    | false => exact .step (.queue rfl)
  | @dispatch id hst =>
    have hs : p.isStructural id = false := by simpa [hst, Stage.Fits] using hc.fits id
    refine forward_single hst ?_ k
    rw [hs]
    exact .step (.dispatch rfl)
  | finish hst =>
    refine forward_single hst ?_ k
    exact .of_eq rfl
  | fail hst =>
    exact forward_single hst (.step .fail) k
  | @branch id hst hb =>
    -- The branches are called here, and being called leaves their status as it is.
    have hopen : (st id).phase.isOpen = false := by
      rw [hst]
      rfl
    have hfresh := hc.fresh_branches hp hopen
    refine forward_update (status_callAll hfresh) ?_ k
    rw [hst]
    cases p.isStructural id with
    | true => exact .of_eq rfl
    | false => exact .step .complete
  | @close id hst hb =>
    refine forward_single hst ?_ k
    cases p.isStructural id with
    | true => exact .of_eq rfl
    | false => exact .step .complete
  | @pass id n hst hn =>
    have hbehind : st id ≠ .passed := by
      rw [hst]
      intro h
      cases h
    have hfresh := hc.fresh_next hp hn hbehind
    refine forward_update (status_callAll hfresh) ?_ k
    rw [hst]
    cases p.isStructural id with
    | true => exact .step .complete
    | false => exact .of_eq rfl
  | @settle id failed hst hn =>
    refine forward_single hst ?_ k
    cases p.isStructural id with
    | false => exact .of_eq rfl
    | true =>
      cases failed with
      | true => exact .step .fail
      | false => exact .step .complete
  | @tell id e hst =>
    exact forward_single hst (.of_eq (by cases e <;> rfl)) k
  | @tellLast id o e failed hst ho =>
    have htold : ∀ k, (Function.update st id (.told e) k).status (p.isStructural k) =
        (st k).status (p.isStructural k) := by
      intro k
      by_cases hk : k = id
      · subst hk
        rw [Function.update_self, hst]
        cases e <;> rfl
      · rw [Function.update_of_ne hk]
    refine forward_update htold ?_ k
    rw [hc.owner_waiting hst ho]
    exact .of_eq rfl

theorem Stage.IsFinal.status {x : Stage} (h : x.IsFinal) (structural : Bool) :
    x.status structural = .initialized ∨ (x.status structural).isTerminal = true := by
  rcases h with rfl | rfl | ⟨e, rfl⟩
  · exact .inl rfl
  · exact .inr rfl
  · refine .inr ?_
    cases e with
    | broken => rfl
    | settled failed => cases structural <;> cases failed <;> rfl

/-! ### Runs -/

/-- A job has a status in each of two states, and `R` holds of the two. -/
def State.Goes (R : Status → Status → Prop) (s t : State) (id : JobId) : Prop :=
  ∃ x y, s.statuses.get? id = some x ∧ t.statuses.get? id = some y ∧ R x y

theorem Matches.status (hm : Matches p s st) (hid : id ∈ p.ids) :
    s.statuses.get? id = some ((st id).status (p.isStructural id)) := by
  rw [hm.statuses id, if_pos hid]

theorem Reachable.goes_one (hp : p.Branching) (hs : Reachable p limit fails s)
    (hm : Move p limit fails s t) (hid : id ∈ p.ids) :
    s.Goes (Relation.ReflGen (Status.Precedes (p.isStructural id))) t id := by
  obtain ⟨st, hc, hst⟩ := reachable_matches hp hs
  obtain ⟨st', ha, hst'⟩ := matches_move hp hc hst hm
  exact ⟨_, _, hst.status hid, hst'.status hid, ha.forward hp hc id⟩

/-- What each move of a run does, the run does step by step. -/
theorem Reachable.goes (hp : p.Branching) (hs : Reachable p limit fails s)
    (h : Relation.ReflTransGen (Move p limit fails) s t) (hid : id ∈ p.ids) :
    s.Goes (p.Onward id) t id := by
  induction h with
  | refl =>
    obtain ⟨st, -, hst⟩ := reachable_matches hp hs
    exact ⟨_, _, hst.status hid, hst.status hid, .refl⟩
  | tail hmoves hm ih =>
    obtain ⟨x, y, hx, hy, hxy⟩ := ih
    obtain ⟨y', z, hy', hz, hyz⟩ := (hs.moves hmoves).goes_one hp hm hid
    obtain rfl := Option.some.inj (hy.symm.trans hy')
    exact ⟨x, z, hx, hz, hxy.trans hyz.to_reflTransGen⟩

theorem Reachable.moves_init (hs : Reachable p limit fails s) :
    Relation.ReflTransGen (Move p limit fails) (Run.init p) s := by
  induction hs with
  | init => exact .refl
  | move _ hm ih => exact ih.tail hm

/-- In a run of a compiled plan, the status of each job begins as initialized and only goes forward,
one step in a move at most. Once it is complete or failed it stays so, and when the run is over no
job is queued or running. -/
theorem statuses_forward {r : Registry} {args : Scope} {n : Node}
    (h : compile r args n = .ok p.table) (hs : Reachable p limit fails s) (hid : id ∈ p.ids) :
    (∃ x, s.statuses.get? id = some x ∧ p.Onward id .initialized x) ∧
    (∀ t, Move p limit fails s t →
      s.Goes (Relation.ReflGen (Status.Precedes (p.isStructural id))) t id) ∧
    (∀ t, Relation.ReflTransGen (Move p limit fails) s t → s.Goes (p.Onward id) t id ∧
      ∀ x, s.statuses.get? id = some x → x.isTerminal = true → t.statuses.get? id = some x) ∧
    (s.IsOver p limit →
      s.statuses.get? id ≠ some .queued ∧ s.statuses.get? id ≠ some .running) := by
  have hp := Plan.branching_of_compile h
  refine ⟨?_, fun t hm => hs.goes_one hp hm hid, fun t hmoves => ?_, fun hover => ?_⟩
  · obtain ⟨x, y, hx, hy, hxy⟩ := Reachable.init.goes hp hs.moves_init hid
    obtain rfl : Status.initialized = x := by
      have hfirst := (matches_init hp).status hid
      rw [Stages.initial_apply] at hfirst
      have hstatus : (if id = p.root then Stage.called else .idle).status (p.isStructural id) =
          .initialized := by
        split <;> rfl
      rw [hstatus] at hfirst
      exact Option.some.inj (hfirst.symm.trans hx)
    exact ⟨y, hy, hxy⟩
  · have hgoes := hs.goes hp hmoves hid
    refine ⟨hgoes, fun x hx hterminal => ?_⟩
    obtain ⟨x', y, hx', hy, hxy⟩ := hgoes
    obtain rfl := Option.some.inj (hx.symm.trans hx')
    rw [hy, Status.eq_of_terminal hterminal hxy]
  · obtain ⟨st, hc, hst⟩ := reachable_matches hp hs
    have hfinal := final_of_over hp hc hst hover id
    rw [hst.status hid]
    rcases hfinal.status (p.isStructural id) with hx | hx
    · rw [hx]
      exact ⟨nofun, nofun⟩
    · constructor <;>
      · intro he
        rw [Option.some.inj he] at hx
        cases hx

/-- The first notification is complete when the run is over, as it was before. -/
theorem notifyPlan_statuses_forward : ∃ s, Reachable notifyPlan 2 (fun _ => false) s ∧
    s.statuses.get? 3 = some .complete ∧ notifyPlan.Onward 3 .initialized .complete ∧
    ∀ t, Relation.ReflTransGen (Move notifyPlan 2 (fun _ => false)) s t →
      t.statuses.get? 3 = some .complete := by
  have hrun : (runScript notifyPlan 2 ⟨[], []⟩).map (·.statuses.get? 3) =
      some (some .complete) := by
    decide +kernel
  obtain ⟨s, hs, hthird⟩ := Option.map_eq_some_iff.mp hrun
  have hreach : Reachable notifyPlan 2 (fun _ => false) s :=
    (reachable_of_runScript (fun f => by simp [Script.fails, Script.cue]) hs).1
  have hid : 3 ∈ notifyPlan.ids := by decide +kernel
  obtain ⟨⟨x, hx, honward⟩, -, hstays, -⟩ := statuses_forward notifyJobs_compiled hreach hid
  obtain rfl := Option.some.inj (hthird.symm.trans hx)
  exact ⟨s, hreach, hthird, honward, fun t ht => (hstays t ht).2 _ hthird rfl⟩

end Run

end Workflow
