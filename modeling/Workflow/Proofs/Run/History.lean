import Workflow.Proofs.Run.Effects
import Workflow.Run.Script

/-!
Runs of any plan with the events that were handled on the way. Every unit in flight may be the
next to end, and each unit may end well or not, also where one job is dispatched several times.
-/

namespace Workflow

namespace Run

/-- A run handles the events `past`, in order, and comes to a state. -/
inductive History (p : Plan) (limit : Nat) : List Event → State → Prop where
  | init : History p limit [] (Run.init p)
  | own {past : List Event} {s t : State} (h : History p limit past s)
    (hstep : s.step? p limit = some t) : History p limit (past ++ s.events.take 1) t
  | ending {past : List Event} {s : State} {f : Flight} (h : History p limit past s)
    (hw : s.step? p limit = none) (hf : f ∈ s.inFlight) (failed : Bool) :
    History p limit past (s.finish f failed)

variable {p : Plan} {limit : Nat} {past : List Event} {s : State}

theorem exists_history {fails : JobId → Bool} (h : Reachable p limit fails s) :
    ∃ past, History p limit past s := by
  induction h with
  | init => exact ⟨[], .init⟩
  | move _ hm ih =>
    obtain ⟨past, hpast⟩ := ih
    cases hm with
    | own hstep => exact ⟨_, hpast.own hstep⟩
    | ending hw hf => exact ⟨_, hpast.ending hw hf _⟩

/-- What a run preserves, told by what the machine does: it handles an event, a unit in flight ends,
it dispatches a job, or it drops an id that no job has. The last two change no events. -/
theorem History.induction {motive : List Event → State → Prop} (h : History p limit past s)
    (init : motive [] (Run.init p))
    (handle : ∀ past s e events, History p limit past s → motive past s →
      s.events = e :: events → motive (past ++ [e]) ({ s with events := events }.handle p e))
    (finish : ∀ past s f failed, History p limit past s → motive past s → f ∈ s.inFlight →
      motive past (s.finish f failed))
    (dispatch : ∀ past s id queue, History p limit past s → motive past s →
      s.queue = id :: queue → motive past ({ s with queue := queue }.dispatch id) := by
        exact fun _ _ _ _ _ ih _ => ih)
    (drop : ∀ past s id queue, History p limit past s → motive past s →
      s.queue = id :: queue → motive past { s with queue := queue } := by
        exact fun _ _ _ _ _ ih _ => ih) : motive past s := by
  induction h with
  | init => exact init
  | @own past s t h hstep ih =>
    rcases step?_eq_some hstep with ⟨e, events, he, rfl⟩ | ⟨he, -, id, queue, hq, rfl⟩
    · rw [he]
      exact handle past s e events h ih he
    · have hpast : past ++ s.events.take 1 = past := by rw [he, List.take_nil, List.append_nil]
      rw [hpast]
      split
      · exact dispatch past s id queue h ih hq
      · exact drop past s id queue h ih hq
  | @ending past s f h _ hf failed ih => exact finish past s f failed h ih hf

/-! ### Runs by a script -/

namespace Timed

variable {t t' : Timed} {sc : Script}

theorem mem_of_first {fs : List Flight} {f : Flight} (h : t.first fs = some f) : f ∈ fs := by
  induction fs with
  | nil => cases h
  | cons g fs ih =>
    rw [first] at h
    cases hg : t.first fs with
    | none =>
      rw [hg] at h
      obtain rfl := Option.some.inj h
      exact List.mem_cons_self
    | some k =>
      simp only [hg] at h
      split at h
      · obtain rfl := Option.some.inj h
        exact List.mem_cons_of_mem _ (ih hg)
      · obtain rfl := Option.some.inj h
        exact List.mem_cons_self

theorem first_eq_none {fs : List Flight} (h : t.first fs = none) : fs = [] := by
  cases fs with
  | nil => rfl
  | cons g fs =>
    rw [first] at h
    cases hg : t.first fs with
    | none => simp [hg] at h
    | some k =>
      simp only [hg] at h
      split at h <;> cases h

/-- A moment of a scripted run is a step of the machine or the end of a unit in flight. -/
theorem tick?_eq_some (h : t.tick? p limit sc = some t') :
    t.state.step? p limit = some t'.state ∨ (t.state.step? p limit = none ∧
      ∃ f ∈ t.state.inFlight, t'.state = t.state.finish f (sc.fails p f)) := by
  rw [tick?] at h
  cases hstep : t.state.step? p limit with
  | some s =>
    rw [hstep] at h
    obtain rfl := Option.some.inj h
    exact .inl rfl
  | none =>
    simp only [hstep] at h
    cases hf : t.first t.state.inFlight with
    | none => simp [hf] at h
    | some f =>
      simp only [hf] at h
      obtain rfl := Option.some.inj h
      exact .inr ⟨rfl, f, mem_of_first hf, rfl⟩

theorem isOver_of_tick? (h : t.tick? p limit sc = none) : t.state.IsOver p limit := by
  rw [tick?] at h
  cases hstep : t.state.step? p limit with
  | some s => simp [hstep] at h
  | none =>
    simp only [hstep] at h
    cases hf : t.first t.state.inFlight with
    | none => exact ⟨hstep, first_eq_none hf⟩
    | some f => simp [hf] at h

/-- What the beginning of a scripted run has and each moment keeps holds at its end. -/
theorem runUpTo_preserves {motive : State → Prop} {bound : Nat}
    (hstep : ∀ s s', motive s → s.step? p limit = some s' → motive s')
    (hend : ∀ s, motive s → s.step? p limit = none → ∀ f ∈ s.inFlight,
      motive (s.finish f (sc.fails p f)))
    (ht : motive t.state) (h : runUpTo p limit sc bound t = some s) :
    motive s ∧ s.IsOver p limit := by
  induction bound generalizing t with
  | zero => cases h
  | succ bound ih =>
    rw [runUpTo] at h
    cases htick : t.tick? p limit sc with
    | none =>
      rw [htick] at h
      obtain rfl := Option.some.inj h
      exact ⟨ht, isOver_of_tick? htick⟩
    | some t' =>
      simp only [htick] at h
      refine ih ?_ h
      rcases tick?_eq_some htick with hs | ⟨hw, f, hf, hs⟩
      · exact hstep _ _ ht hs
      · rw [hs]
        exact hend _ ht hw f hf

end Timed

/-- A scripted run is a run, and it goes on to the end. -/
theorem history_of_runScript {sc : Script} (h : runScript p limit sc = some s) :
    (∃ past, History p limit past s) ∧ s.IsOver p limit := by
  refine Timed.runUpTo_preserves (motive := fun s => ∃ past, History p limit past s) ?_ ?_
    ⟨[], .init⟩ h
  · intro s s' hx hstep
    obtain ⟨past, hpast⟩ := hx
    exact ⟨_, hpast.own hstep⟩
  · intro s hx hw f hf
    obtain ⟨past, hpast⟩ := hx
    exact ⟨_, hpast.ending hw hf _⟩

/-- Where a script tells outcomes by the job alone, its runs are runs with these outcomes. -/
theorem reachable_of_runScript {sc : Script} {fails : JobId → Bool}
    (hfails : ∀ f, sc.fails p f = fails f.id) (h : runScript p limit sc = some s) :
    Reachable p limit fails s ∧ s.IsOver p limit := by
  refine Timed.runUpTo_preserves (motive := Reachable p limit fails) ?_ ?_ .init h
  · intro s s' hs hstep
    exact hs.move (.own hstep)
  · intro s hs hw f hf
    rw [hfails f]
    exact hs.move (.ending hw hf)

end Run

end Workflow
