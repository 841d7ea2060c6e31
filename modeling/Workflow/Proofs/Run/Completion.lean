import Workflow.Proofs.Run.Flow

/-!
Statuses in the end. A job is marked complete with each completion, and every other mark leaves
its completions short of its starts, so a job is complete where each start came to its completion.
-/

namespace Workflow

namespace Run

variable {p : Plan} {limit : Nat} {past : List Event} {s : State} {id : JobId}

/-- The event with which a job is marked complete. -/
def completion (p : Plan) (id : JobId) : Event :=
  if p.isStructural id then .subtreeDone id false else .workDone id false

theorem job?_completion (p : Plan) (id : JobId) : (completion p id).job? = some id := by
  rw [completion]
  split <;> rfl

theorem get?_statuses_of_other {e : Event} (he : e.job? ≠ some id) :
    (s.handle p e).statuses.get? id = s.statuses.get? id := by
  have hother : ∀ k x, id ≠ k → (s.statuses.insert k x).get? id = s.statuses.get? id := by
    intro k x hk
    rw [SortedMap.get?_insert, if_neg hk]
  rw [handle_eq]
  cases e with
  | start k =>
    have hk : id ≠ k := fun hk => he (congrArg some hk.symm)
    exact hother k _ hk
  | workDone k failed =>
    have hk : id ≠ k := fun hk => he (congrArg some hk.symm)
    cases hs : p.isStructural k <;> cases failed <;>
      simp [hs, SortedMap.insertAll, hother k _ hk]
  | subtreeDone k failed =>
    have hk : id ≠ k := fun hk => he (congrArg some hk.symm)
    cases hs : p.isStructural k <;> simp [hs, SortedMap.insertAll, hother k _ hk]
  | chainEnd owner failed => rfl

/-- What an event about a job makes of its status: the completion of the job marks it complete,
and nothing else marks it but a start or a failure. -/
theorem status_cases {e : Event} (he : e.job? = some id) :
    (e = completion p id ∧ (s.handle p e).statuses.get? id = some .complete) ∨
    (e = .start id ∨ e = .workDone id true ∨
      (e = .subtreeDone id true ∧ p.isStructural id = true)) ∨
    (e ≠ completion p id ∧ e ≠ .start id ∧
      (s.handle p e).statuses.get? id = s.statuses.get? id) := by
  have hself : ∀ x, (s.statuses.insert id x).get? id = some x := by
    intro x
    rw [SortedMap.get?_insert, if_pos rfl]
  rw [handle_eq]
  cases e with
  | start k =>
    obtain rfl := Option.some.inj he
    exact .inr (.inl (.inl rfl))
  | workDone k failed =>
    obtain rfl := Option.some.inj he
    cases failed with
    | true => exact .inr (.inl (.inr (.inl rfl)))
    | false => cases hs : p.isStructural k <;> simp [completion, hs, SortedMap.insertAll, hself]
  | subtreeDone k failed =>
    obtain rfl := Option.some.inj he
    cases hs : p.isStructural k <;> cases failed <;>
      simp [completion, hs, SortedMap.insertAll, hself]
  | chainEnd owner failed => cases he

/-- A job that an event is about was started. -/
theorem History.start_of_job (h : History p limit past s) {e : Event} (hmem : e ∈ posted past s)
    (he : e.job? = some id) : .start id ∈ past ++ [e] := by
  cases e with
  | start k =>
    obtain rfl := Option.some.inj he
    exact List.mem_append_right _ List.mem_cons_self
  | workDone k failed =>
    obtain rfl := Option.some.inj he
    exact List.mem_append_left _ (h.start_of_workDone hmem)
  | subtreeDone k failed =>
    obtain rfl := Option.some.inj he
    exact List.mem_append_left _ (h.start_of_subtreeDone hmem)
  | chainEnd owner failed => cases he

/-- A job that waits in the queue has more starts than ends of its work. -/
theorem History.lt_of_queue (h : History p limit past s) (hid : id ∈ s.queue) :
    past.count (.workDone id false) < past.count (.start id) := by
  have hworks := h.works_le id
  have hpos := List.count_pos_iff.mpr hid
  have hdone := count_le_posted past s (.workDone id false)
  rw [works] at hworks
  omega

theorem statuses_dispatch (s : State) (queue : List JobId) (k : JobId) :
    ({ s with queue := queue }.dispatch k).statuses = s.statuses.insert k .running := rfl

theorem History.unstarted (h : History p limit past s) (hid : id ∈ p.ids)
    (hnot : .start id ∉ past) : s.statuses.get? id = some .initialized := by
  refine (h.induction (motive := fun past s =>
    .start id ∉ past → s.statuses.get? id = some .initialized) ?_ ?_ ?_ ?_) hnot
  · intro _
    have hfirst := SortedMap.get?_ofList_map (f := fun _ => Status.initialized)
      p.table.keys_ascend id
    exact hfirst.trans (if_pos hid)
  · intro past s e events h ih he hnot
    have hmem : e ∈ posted past s := mem_posted_of_events (by rw [he]; exact List.mem_cons_self)
    have hother : e.job? ≠ some id := fun hj => hnot (h.start_of_job hmem hj)
    rw [get?_statuses_of_other hother]
    exact ih fun hs => hnot (List.mem_append_left _ hs)
  · intro past s f failed _ ih _
    exact ih
  · intro past s k queue h ih hq hnot
    have hk : id ≠ k := by
      rintro rfl
      have hqueued : id ∈ s.queue := by
        rw [hq]
        exact List.mem_cons_self
      have hlt := h.lt_of_queue hqueued
      exact hnot (List.count_pos_iff.mp (by omega))
    rw [statuses_dispatch, SortedMap.get?_insert, if_neg hk]
    exact ih hnot

theorem History.completion_le (h : History p limit past s) (id : JobId) :
    past.count (completion p id) ≤ past.count (.workDone id false) := by
  rw [completion]
  split
  · exact (h.settled_le id).1
  · exact Nat.le_refl _

theorem count_concat_of_ne {e k : Event} (h : e ≠ k) : (past ++ [e]).count k = past.count k := by
  have hnone : [e].count k = 0 := by
    rw [List.count_eq_zero, List.mem_singleton]
    exact h.symm
  rw [List.count_append, hnone, Nat.add_zero]

/-- When a job is marked otherwise than complete, its completions fall short of its starts. -/
theorem History.lt_of_marked (h : History p limit past s) {e : Event} (hmem : e ∈ posted past s)
    (he : e = .start id ∨ e = .workDone id true ∨
      (e = .subtreeDone id true ∧ p.isStructural id = true)) :
    (past ++ [e]).count (completion p id) < (past ++ [e]).count (.start id) := by
  have hworks := h.works_le id
  have hclosings := h.closings_le id
  have hcompletion := h.completion_le id
  have hworked := count_le_posted past s (.workDone id false)
  have hsettled := count_le_posted past s (.subtreeDone id false)
  have hpos := List.count_pos_iff.mpr hmem
  rw [works] at hworks
  rw [closings] at hclosings
  rcases he with rfl | rfl | ⟨rfl, hs⟩
  · have hne : Event.start id ≠ completion p id := by
      rw [completion]
      split <;> simp
    rw [count_concat_of_ne hne, List.count_append, List.count_singleton_self]
    omega
  · have hne : Event.workDone id true ≠ completion p id := by
      rw [completion]
      split <;> simp
    rw [count_concat_of_ne hne, count_concat_of_ne (k := .start id) (by simp)]
    omega
  · have hlast : completion p id = .subtreeDone id false := by rw [completion, if_pos hs]
    rw [hlast, count_concat_of_ne (by simp), count_concat_of_ne (k := .start id) (by simp)]
    omega

/-- A job that was started is complete, or its completions fall short of its starts. -/
theorem History.completed (h : History p limit past s) (hid : .start id ∈ past) :
    s.statuses.get? id = some .complete ∨
      past.count (completion p id) < past.count (.start id) := by
  refine (h.induction (motive := fun past s => .start id ∈ past →
    s.statuses.get? id = some .complete ∨
      past.count (completion p id) < past.count (.start id)) ?_ ?_ ?_ ?_) hid
  · intro hid
    cases hid
  · intro past s e events h ih he hid
    have hmem : e ∈ posted past s := mem_posted_of_events (by rw [he]; exact List.mem_cons_self)
    have hsame : e ≠ completion p id → e ≠ .start id →
        ({ s with events := events }.handle p e).statuses.get? id = s.statuses.get? id →
        ({ s with events := events }.handle p e).statuses.get? id = some .complete ∨
          (past ++ [e]).count (completion p id) < (past ++ [e]).count (.start id) := by
      intro hc hs hstatus
      rw [hstatus, count_concat_of_ne hc, count_concat_of_ne hs]
      rcases List.mem_append.mp hid with hid | hid
      · exact ih hid
      · exact absurd (List.mem_singleton.mp hid).symm hs
    by_cases hj : e.job? = some id
    · rcases status_cases (s := { s with events := events }) hj with ⟨-, hc⟩ | hc | ⟨hc, hs, hst⟩
      · exact .inl hc
      · exact .inr (h.lt_of_marked hmem hc)
      · exact hsame hc hs hst
    · refine hsame ?_ ?_ (get?_statuses_of_other hj)
      · rintro rfl
        exact hj (job?_completion p id)
      · rintro rfl
        exact hj rfl
  · intro past s f failed _ ih _
    exact ih
  · intro past s k queue h ih hq hid
    by_cases hk : id = k
    · subst hk
      have hqueued : id ∈ s.queue := by
        rw [hq]
        exact List.mem_cons_self
      have hlt := h.lt_of_queue hqueued
      exact .inr (Nat.lt_of_le_of_lt (h.completion_le id) hlt)
    · rw [statuses_dispatch, SortedMap.get?_insert, if_neg hk]
      exact ih hid

/-- A run that is over and went well has completed all jobs that links lead to from the root, and
no others, also where the check let a job through that no link leads to. -/
theorem complete_iff_reached (ht : p.table.Owned) (h : History p limit past s)
    (hover : s.IsOver p limit) (hs : s.succeeded = true) (hid : id ∈ p.ids) :
    (p.Reached id → s.statuses.get? id = some .complete) ∧
      (¬ p.Reached id → s.statuses.get? id = some .initialized) := by
  have hp := Plan.nested_of_owned ht
  have hfinished : s.finished = some false := by simpa [State.succeeded] using hs
  constructor
  · intro hreached
    have hstart := h.start_mem hp hover hfinished hreached
    have hsettled := h.settled hp hover hfinished id
    have hle := h.settled_le id
    have hcompletion : past.count (completion p id) = past.count (.start id) := by
      rw [completion]
      split <;> omega
    rcases h.completed hstart with hc | hlt
    · exact hc
    · omega
  · intro hreached
    refine h.unstarted hid fun hstart => ?_
    exact hreached (h.reached id (List.mem_append_left _ hstart))

theorem notifyPlan_reached_complete : ∃ past s, History notifyPlan 2 past s ∧
    s.IsOver notifyPlan 2 ∧ s.succeeded = true ∧ notifyPlan.Reached 4 ∧
    s.statuses.get? 4 = some .complete := by
  have hrun : (runScript notifyPlan 2 ⟨[], []⟩).map State.succeeded = some true := by
    decide +kernel
  obtain ⟨s, hs, hsucceeded⟩ := Option.map_eq_some_iff.mp hrun
  obtain ⟨⟨past, hpast⟩, hover⟩ := history_of_runScript hs
  have hbranch : notifyPlan.Reached 2 := Plan.Reached.root.link (by decide +kernel)
  have hfirst : notifyPlan.Reached 3 := hbranch.link (by decide +kernel)
  have hreached : notifyPlan.Reached 4 := hfirst.link (by decide +kernel)
  have hcomplete := complete_iff_reached (Plan.owned_of_compile notifyJobs_compiled) hpast hover
    hsucceeded (show 4 ∈ notifyPlan.ids by decide +kernel)
  exact ⟨past, s, hpast, hover, hsucceeded, hreached, hcomplete.1 hreached⟩

/-- A job that lists no branches, with a job under it. -/
def unlistedPlan : Plan where
  table := Table.ofJobs [⟨1, "Notify", [], [], none, none, none⟩,
    ⟨2, "Notify", [], [], some 1, none, none⟩]
  root := 1
  accepted := by decide

/-- The check lets a job through that no link leads to. Its run goes well without it. -/
theorem unlistedPlan_left_behind : unlistedPlan.table.Owned ∧ 2 ∈ unlistedPlan.childIds 1 ∧
    ∃ past s, History unlistedPlan 2 past s ∧ s.IsOver unlistedPlan 2 ∧ s.succeeded = true ∧
      s.statuses.get? 2 = some .initialized := by
  have hrun : (runScript unlistedPlan 2 ⟨[], []⟩).map
      (fun s => (s.succeeded, s.statuses.get? 2)) = some (true, some .initialized) := by
    decide +kernel
  obtain ⟨s, hs, hend⟩ := Option.map_eq_some_iff.mp hrun
  obtain ⟨hsucceeded, hstatus⟩ := Prod.mk.inj hend
  obtain ⟨⟨past, hpast⟩, hover⟩ := history_of_runScript hs
  exact ⟨Table.owned_ofJobs _, by decide +kernel, past, s, hpast, hover, hsucceeded, hstatus⟩

end Run

end Workflow
