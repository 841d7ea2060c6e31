import Workflow.Proofs.Plan.Accepts
import Workflow.Proofs.Plan.Outline
import Workflow.Proofs.Run.Bounded

/-!
Ways through a plan from its root on: its outline and its runs. They begin at the one job without
a parent and end wherever the jobs of the table stand under their own ids. The check does not ask
for that; without it the root may be missing, and a way may lead round for ever.
-/

namespace Workflow

namespace Plan

variable {p : Plan}

theorem root_of_owned (ht : p.table.Owned) : ∃ j, p.get? p.root = some j ∧ j.id = p.root ∧
    ∀ k ∈ p.table.jobs, k.parent = none ↔ k = j := by
  have hsound := (checkTable_eq_ok_iff ht).mp p.accepted
  obtain ⟨j, hj, hid, hroot⟩ := hsound.exists_root ht
  exact ⟨j, ht.get?_eq_some_iff.mpr ⟨hj, hid⟩, hid, hroot⟩

end Plan

namespace Run

variable {p : Plan} {limit n : Nat} {past : List Event} {s : State} {es : List Event}

theorem closes_of_job? {e : Event} (he : e.job?.isSome = true) (s : State) : s.closes e = [] := by
  cases e with
  | chainEnd owner failed => cases he
  | _ => rfl

/-- Where each of some events brings about just one of them, a run that begins with one handles
only these. -/
theorem Moves.goes_round (hstart : .start p.root ∈ es)
    (hround : ∀ e ∈ es, e.job?.isSome = true ∧ ∃ e' ∈ es, e.replies p = [e'])
    (h : Moves p limit n past s) : ∃ e ∈ es, s.events = [e] := by
  induction h with
  | init => exact ⟨_, hstart, rfl⟩
  | own _ hstep ih =>
    obtain ⟨e, he, hevents⟩ := ih
    rcases step?_eq_some hstep with ⟨e', events, hs, rfl⟩ | ⟨hs, -⟩
    · rw [hevents, List.cons.injEq] at hs
      obtain ⟨rfl, rfl⟩ := hs
      obtain ⟨hjob, next, hnext, hreplies⟩ := hround e he
      refine ⟨next, hnext, ?_⟩
      rw [handle_eq, hreplies, closes_of_job? hjob]
      rfl
    · rw [hevents] at hs
      cases hs
  | ending _ hw _ _ ih =>
    obtain ⟨e, -, hevents⟩ := ih
    rw [(step?_eq_none hw).1] at hevents
    cases hevents

/-- Such a run has no end. -/
theorem endless_of_round (hstart : .start p.root ∈ es)
    (hround : ∀ e ∈ es, e.job?.isSome = true ∧ ∃ e' ∈ es, e.replies p = [e']) (limit : Nat) :
    (∀ n, ∃ past s, Moves p limit n past s) ∧ ∀ sc, runScript p limit sc = none := by
  have hgoes : ∀ {n past s}, Moves p limit n past s → ¬ s.IsOver p limit := by
    intro n past s h hover
    obtain ⟨e, -, hevents⟩ := h.goes_round hstart hround
    rw [(step?_eq_none hover.1).1] at hevents
    cases hevents
  constructor
  · intro n
    induction n with
    | zero => exact ⟨[], _, .init⟩
    | succ n ih =>
      obtain ⟨past, s, h⟩ := ih
      exact h.exists_next (hgoes h)
  · intro sc
    cases hs : runScript p limit sc with
    | none => rfl
    | some s =>
      obtain ⟨n, past, h⟩ := moves_of_runScript hs
      exact absurd (history_of_runScript hs).2 (hgoes h)

/-- Where the jobs of a plan stand under their own ids, its root is its one job without a parent,
its outline ends, and so does every run of it, in whatever order and however its units end. -/
theorem traversals_end (ht : p.table.Owned) :
    (∃ j, p.get? p.root = some j ∧ j.id = p.root ∧ ∀ k ∈ p.table.jobs, k.parent = none ↔ k = j) ∧
    (∃ lines, p.outline? = some lines ∧
      ∀ bound, p.size < bound → p.outlineFrom bound 0 p.root = some lines) ∧
    ∀ limit, (∀ n past s, Moves p limit n past s → n ≤ bound p) ∧
      ∀ sc, ∃ s, runScript p limit sc = some s ∧ s.IsOver p limit := by
  have hinit := worth_init_lt p
  refine ⟨Plan.root_of_owned ht, ?_, fun limit => ⟨fun n past s h => ?_, fun sc => ?_⟩⟩
  · obtain ⟨lines, hlines⟩ := Plan.outline?_of_owned ht
    exact ⟨lines, hlines, fun bound hbound => Plan.outlineFrom_mono hbound hlines⟩
  · have hworth := h.worth_le ht
    omega
  · obtain ⟨s, hs⟩ : ∃ s, runScript p limit sc = some s := by
      rw [runScript]
      exact runUpTo_ends ht hinit
    exact ⟨s, hs, (history_of_runScript hs).2⟩

/-- A batch with one branch, and a job after the first in that branch. -/
def batchPlan : Plan where
  table := Table.ofJobs [⟨1, batchName, [], [], none, some [2], none⟩,
    ⟨2, branchName, [], [], some 1, none, none⟩, ⟨3, "Notify", [], [], some 2, none, some 4⟩,
    ⟨4, "Notify", [], [], some 2, none, none⟩]
  root := 1
  accepted := by decide

theorem batchPlan_traversals_end : batchPlan.table.Owned ∧
    (∃ j, batchPlan.get? 1 = some j ∧ j.parent = none) ∧
    (∃ lines, batchPlan.outline? = some lines) ∧
    ∀ sc, ∃ s, runScript batchPlan 1 sc = some s ∧ s.IsOver batchPlan 1 := by
  have howned : batchPlan.table.Owned := Table.owned_ofJobs _
  obtain ⟨⟨j, hj, -, hroot⟩, ⟨lines, hlines, -⟩, hruns⟩ := traversals_end howned
  have hmem : j ∈ batchPlan.table.jobs := Table.mem_jobs_iff.mpr ⟨1, hj⟩
  exact ⟨howned, ⟨j, hj, (hroot j hmem).mpr rfl⟩, ⟨lines, hlines⟩, (hruns 1).2⟩

/-- One job under another id than its own. -/
def strayPlan : Plan where
  table := SortedMap.ofList [(1, ⟨5, "Notify", [], [], none, none, none⟩)]
  root := 5
  accepted := by decide

/-- The branch 2 replays what calls itself 3; but under 3 stands a job that 2 follows. -/
def roundPlan : Plan where
  table := SortedMap.ofList [(1, ⟨1, batchName, [], [], none, some [2], none⟩),
    (2, ⟨2, branchName, [], [], some 1, none, none⟩),
    (3, ⟨3, batchName, [], [], some 1, none, some 2⟩),
    (4, ⟨3, batchName, [], [], some 2, none, none⟩)]
  root := 1
  accepted := by decide

def roundEvents : List Event :=
  [.start 1, .workDone 1 false, .start 2, .workDone 2 false, .start 3, .workDone 3 false,
    .subtreeDone 3 false]

/-- The check lets both pass, though one has no job at its root, and neither the outline nor any
run of the other has an end. -/
theorem misplaced_accepted :
    (¬ strayPlan.table.Owned ∧ strayPlan.get? strayPlan.root = none) ∧
    ¬ roundPlan.table.Owned ∧
      (∀ bound, roundPlan.outlineFrom bound 0 roundPlan.root = none) ∧
      ∀ limit, (∀ n, ∃ past s, Moves roundPlan limit n past s) ∧
        ∀ sc, runScript roundPlan limit sc = none := by
  have hstray : ¬ strayPlan.table.Owned := fun h => absurd (h 1 _ rfl) (by decide)
  have hround : ¬ roundPlan.table.Owned := fun h => absurd (h 4 _ rfl) (by decide)
  have hdown : 2 ∈ roundPlan.links 1 := by decide
  have hentry : 3 ∈ roundPlan.links 2 := by decide
  have hback : 2 ∈ roundPlan.links 3 := by decide
  have houtline : ∀ bound, roundPlan.outlineFrom bound 0 roundPlan.root = none := fun bound =>
    Plan.outlineFrom_of_cycle (.head hentry (.single hback)) (.single hdown)
  have hevents : ∀ e ∈ roundEvents,
      e.job?.isSome = true ∧ ∃ e' ∈ roundEvents, e.replies roundPlan = [e'] := by
    decide
  exact ⟨⟨hstray, rfl⟩, hround, houtline, endless_of_round List.mem_cons_self hevents⟩

end Run

end Workflow
