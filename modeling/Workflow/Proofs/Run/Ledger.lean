import Workflow.Proofs.Run.Counters
import Workflow.Proofs.Run.History

/-!
The events of a run balance in any plan that passed the check, also where links lead to a job
several times: nothing is posted but in reply to an event that was handled, the work of a job ends
no more often than the job starts, and all under it is done no more often than its work.
-/

namespace Workflow

namespace Run

/-- Events that are posted in reply to a single event, whatever the counters are. -/
def Event.isLink : Event → Bool
  | .start _ | .chainEnd _ _ => true
  | .workDone _ _ | .subtreeDone _ _ => false

/-- Everything that was posted: what was handled and what still waits. -/
def posted (past : List Event) (s : State) : List Event := past ++ s.events

variable {p : Plan} {limit : Nat} {past : List Event} {s : State}

theorem closes_of_events (s : State) (events : List Event) (e : Event) :
    { s with events := events }.closes e = s.closes e := by
  cases e with
  | chainEnd owner failed => cases owner <;> rfl
  | _ => rfl

theorem posted_handle {e : Event} {events : List Event} (he : s.events = e :: events) :
    posted (past ++ [e]) ({ s with events := events }.handle p e) =
      posted past s ++ (e.replies p ++ s.closes e) := by
  rw [posted, posted, handle_eq, closes_of_events, he]
  simp

theorem posted_finish (f : Flight) (failed : Bool) :
    posted past (s.finish f failed) = posted past s ++ [.workDone f.id failed] := by
  simp [posted, State.finish, State.post]

theorem count_le_posted (past : List Event) (s : State) (e : Event) :
    past.count e ≤ (posted past s).count e := by
  rw [posted, List.count_append]
  exact Nat.le_add_right _ _

theorem count_closes_of_isLink {e k : Event} (hk : k.isLink = true) :
    (s.closes e).count k = 0 := by
  rw [List.count_eq_zero]
  intro hmem
  cases e with
  | chainEnd owner failed =>
    cases owner with
    | none => cases hmem
    | some o =>
      rw [State.closes] at hmem
      split at hmem
      · obtain rfl := List.mem_singleton.mp hmem
        cases hk
      · cases hmem
  | _ => cases hmem

/-- Each start and each end of a chain was posted in reply to an event that was handled; only the
start of the root was there from the beginning. -/
theorem History.links (h : History p limit past s) {k : Event} (hk : k.isLink = true) :
    (posted past s).count k =
      [Event.start p.root].count k + (past.flatMap (Event.replies p)).count k := by
  refine h.induction (motive := fun past s => (posted past s).count k =
    [Event.start p.root].count k + (past.flatMap (Event.replies p)).count k) ?_ ?_ ?_
  · simp [posted, Run.init]
  · intro past s e events _ ih he
    rw [posted_handle he, List.count_append, List.count_append, count_closes_of_isLink hk, ih,
      List.flatMap_append, List.count_append]
    simp only [List.flatMap_cons, List.flatMap_nil, List.append_nil]
    omega
  · intro past s f failed _ ih _
    have hne : [Event.workDone f.id failed].count k = 0 := by
      rw [List.count_eq_zero, List.mem_singleton]
      rintro rfl
      cases hk
    rw [posted_finish, List.count_append, hne, Nat.add_zero]
    exact ih

/-- How often the work of a job waits to be dispatched, is in flight or has ended. -/
def works (past : List Event) (s : State) (id : JobId) : Nat :=
  s.queue.count id + (s.inFlight.map Flight.id).count id +
    (posted past s).count (.workDone id true) + (posted past s).count (.workDone id false)

/-- Only a start brings work, and it brings one piece of it. -/
theorem works_of_event (p : Plan) (s : State) (e : Event) (id : JobId) :
    (e.queues p).count id + (e.replies p ++ s.closes e).count (.workDone id true) +
      (e.replies p ++ s.closes e).count (.workDone id false) = [e].count (.start id) := by
  cases e with
  | start k =>
    cases hs : p.isStructural k <;> simp [hs, List.count_singleton]
  | workDone k failed =>
    cases failed with
    | true => simp
    | false => by_cases hb : p.branches k = [] <;> simp [hb, List.count_eq_zero]
  | subtreeDone k failed => cases hn : p.next? k <;> cases failed <;> simp [hn]
  | chainEnd owner failed =>
    cases owner with
    | none => simp
    | some o => cases hl : (s.counters.complete o).1 <;> simp [hl]

theorem History.works_le (h : History p limit past s) (id : JobId) :
    works past s id ≤ past.count (.start id) := by
  refine h.induction (motive := fun past s => works past s id ≤ past.count (.start id))
    ?_ ?_ ?_ ?_ ?_
  · simp [works, posted, Run.init]
  · intro past s e events _ ih he
    have hnew := works_of_event p s e id
    rw [works, posted_handle he]
    rw [works] at ih
    simp only [handle_eq, List.count_append] at hnew ih ⊢
    omega
  · intro past s f failed _ ih hf
    have hflights := ((List.perm_cons_erase hf).map Flight.id).count_eq id
    have hnew : [Event.workDone f.id failed].count (.workDone id true) +
        [Event.workDone f.id failed].count (.workDone id false) = [f.id].count id := by
      cases failed <;> simp [List.count_singleton]
    have hqueue : (s.finish f failed).queue = s.queue := rfl
    have hflying : (s.finish f failed).inFlight = s.inFlight.erase f := rfl
    rw [List.map_cons, ← List.singleton_append, List.count_append] at hflights
    rw [works] at ih
    rw [works, posted_finish, List.count_append, List.count_append, hqueue, hflying]
    omega
  · intro past s k queue _ ih hq
    rw [works, hq, List.count_cons] at ih
    simp only [works, State.dispatch, State.mark, posted, List.map_append, List.count_append,
      List.map_cons, List.map_nil, List.count_singleton] at ih ⊢
    omega
  · intro past s k queue _ ih hq
    rw [works, hq, List.count_cons] at ih
    simp only [works, posted] at ih ⊢
    omega

/-- A job is dispatched no more often than it is started. -/
theorem History.dispatched_le (h : History p limit past s) (id : JobId) :
    s.queue.count id + s.dispatched.count id ≤ past.count (.start id) := by
  refine h.induction (motive := fun past s =>
    s.queue.count id + s.dispatched.count id ≤ past.count (.start id)) ?_ ?_ ?_ ?_ ?_
  · simp [Run.init]
  · intro past s e events _ ih _
    have hnew := works_of_event p s e id
    simp only [handle_eq, List.count_append] at hnew ih ⊢
    omega
  · intro past s f failed _ ih _
    exact ih
  · intro past s k queue _ ih hq
    rw [hq, List.count_cons] at ih
    show queue.count id + (s.dispatched ++ [k]).count id ≤ _
    rw [List.count_append, List.count_singleton]
    omega
  · intro past s k queue _ ih hq
    rw [hq, List.count_cons] at ih
    show queue.count id + s.dispatched.count id ≤ _
    omega

/-! ### Ends of all under a job -/

/-- Without a call of the counters, all under a job is done only if there is nothing under it. -/
theorem count_replies_subtreeDone (p : Plan) (e : Event) (id : JobId) (failed : Bool) :
    (e.replies p).count (.subtreeDone id failed) =
      if e = .workDone id false ∧ p.branches id = [] ∧ failed = false then 1 else 0 := by
  cases e with
  | start k => cases hs : p.isStructural k <;> simp [hs]
  | workDone k broken =>
    cases broken with
    | true => simp
    | false =>
      by_cases hb : p.branches k = []
      · by_cases hk : k = id
        · subst hk
          cases failed <;> simp [hb]
        · simp [hb, hk]
      · by_cases hk : k = id
        · subst hk
          simp [hb, List.count_eq_zero]
        · simp [hb, hk, List.count_eq_zero]
  | subtreeDone k broken => cases hn : p.next? k <;> cases broken <;> simp [hn]
  | chainEnd owner broken => simp

/-- What the handling of an event can make of the counter of a job: the end of its work arms it,
the end of a chain under it counts it down, and nothing else touches it. -/
theorem counter_cases (p : Plan) (s : State) (e : Event) (id : JobId) :
    (e = .workDone id false ∧ p.branches id ≠ [] ∧
      ((s.handle p e).counters.outstanding id = (p.branches id).length ∨
        (s.handle p e).counters.outstanding id = 0)) ∨
    (∃ failed n, e = .chainEnd (some id) failed ∧ s.counters.outstanding id = n + 1 ∧
      (s.handle p e).counters.outstanding id = n ∧
      s.closes e = if n = 0 then [.subtreeDone id (failed || decide (id ∈ s.failedOwners))]
        else []) ∨
    ((s.handle p e).counters.outstanding id = s.counters.outstanding id ∧
      ∀ failed, .subtreeDone id failed ∉ s.closes e) := by
  rw [handle_eq]
  cases e with
  | start k => exact .inr (.inr ⟨rfl, by simp⟩)
  | subtreeDone k failed => exact .inr (.inr ⟨rfl, by simp⟩)
  | workDone k failed =>
    cases failed with
    | true => exact .inr (.inr ⟨rfl, by simp⟩)
    | false =>
      by_cases hb : p.branches k = []
      · exact .inr (.inr ⟨by simp [hb], by simp⟩)
      · by_cases hk : id = k
        · subst hk
          have harm := s.counters.outstanding_arm id (p.branches id).length
          exact .inl ⟨rfl, hb, by simpa [hb] using harm⟩
        · refine .inr (.inr ⟨?_, by simp⟩)
          simp [hb, Counters.arm, Counters.outstanding_set_of_ne hk]
  | chainEnd owner failed =>
    cases owner with
    | none => exact .inr (.inr ⟨rfl, by simp⟩)
    | some o =>
      by_cases hk : id = o
      · subst hk
        rcases Nat.eq_zero_or_pos (s.counters.outstanding id) with hzero | hpos
        · refine .inr (.inr ?_)
          simp [Counters.complete_of_zero hzero]
        · obtain ⟨n, hg, hc⟩ := Counters.complete_of_pos hpos
          have hset := Counters.outstanding_set_self (by rw [hg]; rfl) n
          refine .inr (.inl ⟨failed, n, rfl, Counters.outstanding_of_get? hg, ?_, ?_⟩)
          · simp [hc, hset]
          · simp [hc]
      · refine .inr (.inr ⟨?_, ?_⟩)
        · simp [Counters.outstanding_complete_of_ne hk]
        · cases (s.counters.complete o).1 <;> simp [hk]

/-- Whether something is outstanding for a job, as a number. -/
def State.awaits (s : State) (id : JobId) : Nat := min 1 (s.counters.outstanding id)

/-- How often all under a job is awaited or done. -/
def closings (past : List Event) (s : State) (id : JobId) : Nat :=
  (posted past s).count (.subtreeDone id true) + (posted past s).count (.subtreeDone id false) +
    s.awaits id

/-- Only the end of the work of a job has all under it awaited, and has it awaited once. -/
theorem closings_of_event (p : Plan) (s : State) (e : Event) (id : JobId) :
    (e.replies p ++ s.closes e).count (.subtreeDone id true) +
      (e.replies p ++ s.closes e).count (.subtreeDone id false) + (s.handle p e).awaits id ≤
        s.awaits id + [e].count (.workDone id false) := by
  rw [List.count_append, List.count_append, count_replies_subtreeDone, count_replies_subtreeDone,
    List.count_singleton, State.awaits, State.awaits]
  rcases counter_cases p s e id with ⟨rfl, hb, -⟩ | ⟨failed, n, rfl, hn, hn', hcloses⟩ |
    ⟨hsame, hnone⟩
  · simp [hb]
  · rw [hn, hn', hcloses]
    cases n with
    | zero => cases failed || decide (id ∈ s.failedOwners) <;> simp
    | succ n => simp
  · rw [hsame, List.count_eq_zero.mpr (hnone true), List.count_eq_zero.mpr (hnone false)]
    by_cases he : e = .workDone id false
    · by_cases hb : p.branches id = [] <;> simp [he, hb]
      omega
    · simp [he]

/-- All under a job is done no more often than the work of the job itself went well. -/
theorem History.closings_le (h : History p limit past s) (id : JobId) :
    closings past s id ≤ past.count (.workDone id false) := by
  refine h.induction (motive := fun past s =>
    closings past s id ≤ past.count (.workDone id false)) ?_ ?_ ?_
  · simp [closings, posted, Run.init, State.awaits, Counters.outstanding_ofSize]
  · intro past s e events _ ih he
    have hnew := closings_of_event p { s with events := events } e id
    have hawaits : { s with events := events }.awaits id = s.awaits id := rfl
    rw [closes_of_events, hawaits] at hnew
    rw [closings] at ih
    rw [closings, posted_handle he]
    simp only [List.count_append] at hnew ih ⊢
    omega
  · intro past s f failed _ ih _
    rw [closings, posted_finish]
    simpa [closings, State.awaits, State.finish, State.post] using ih

end Run

end Workflow
