import Workflow.Proofs.Run.Once

/-!
The log of the calls of the counters. Each job is armed once at most, each call to complete meets
a counter that is above zero, and the counters are what is left of the arms after the completions.
-/

namespace Workflow

namespace Run

/-- The counters after calls, all at zero before. -/
def replay (p : Plan) (calls : List CounterCall) : Counters :=
  calls.foldl CounterCall.apply (Counters.ofSize p.size)

namespace State

/-- How often a job was armed with the number of its branches. -/
def arms (s : State) (p : Plan) (id : JobId) : Nat :=
  s.calls.count (.arm id (p.branches id).length)

/-- How many ends of branches of a job were counted. -/
def counted (s : State) (id : JobId) : Nat :=
  s.calls.count (.complete id true) + s.calls.count (.complete id false)

end State

/-- A log in which jobs with branches are armed with their number, and every completion meets a
counter above zero; it is told to be the last one when it leaves zero behind. -/
structure Logged (p : Plan) (s : State) : Prop where
  replayed : s.counters = replay p s.calls
  armed : ∀ id n, .arm id n ∈ s.calls → id ∈ p.ids ∧ p.branches id ≠ [] ∧ n = (p.branches id).length
  balance : ∀ id, s.counters.outstanding id + s.counted id = s.arms p id * (p.branches id).length
  last : ∀ id, s.calls.count (.complete id true) + min 1 (s.counters.outstanding id) = s.arms p id
  met : ∀ before id last after, s.calls = before ++ .complete id last :: after →
    ∃ n, (replay p before).get? id = some (n + 1) ∧ last = (n == 0)

variable {p : Plan} {limit : Nat} {fails : JobId → Bool} {past : List Event} {s s' : State}
  {id o : JobId} {n : Nat}

theorem State.arms_concat {c : CounterCall} (h : s'.calls = s.calls ++ [c]) (p : Plan) (id : JobId) :
    s'.arms p id = s.arms p id + [c].count (.arm id (p.branches id).length) := by
  rw [State.arms, h, List.count_append, State.arms]

theorem State.counted_concat {c : CounterCall} (h : s'.calls = s.calls ++ [c]) (id : JobId) :
    s'.counted id = s.counted id +
      ([c].count (.complete id true) + [c].count (.complete id false)) := by
  rw [State.counted, h, List.count_append, List.count_append, State.counted]
  omega

theorem replay_concat (p : Plan) (calls : List CounterCall) (c : CounterCall) :
    replay p (calls ++ [c]) = c.apply (replay p calls) := by
  rw [replay, List.foldl_append]
  rfl

namespace Logged

theorem initial (p : Plan) : Logged p (Run.init p) where
  replayed := rfl
  armed := nofun
  balance := by
    intro id
    simp [Run.init, State.counted, State.arms, Counters.outstanding_ofSize]
  last := by
    intro id
    simp [Run.init, State.arms, Counters.outstanding_ofSize]
  met := by
    intro before id last after h
    simp [Run.init] at h

theorem same (h : Logged p s) (hcalls : s'.calls = s.calls) (hcounters : s'.counters = s.counters) :
    Logged p s' where
  replayed := by rw [hcounters, hcalls, h.replayed]
  armed := by
    rw [hcalls]
    exact h.armed
  balance := by
    intro id
    rw [hcounters, State.counted, State.arms, hcalls]
    exact h.balance id
  last := by
    intro id
    rw [hcounters, State.arms, hcalls]
    exact h.last id
  met := by
    rw [hcalls]
    exact h.met

/-- What was met before another call was logged is met after it. -/
theorem met_concat (h : Logged p s) {c : CounterCall}
    (hc : ∀ id last, c = .complete id last →
      ∃ n, (replay p s.calls).get? id = some (n + 1) ∧ last = (n == 0))
    {before after : List CounterCall} {id : JobId} {last : Bool}
    (hcalls : s.calls ++ [c] = before ++ .complete id last :: after) :
    ∃ n, (replay p before).get? id = some (n + 1) ∧ last = (n == 0) := by
  rcases List.eq_nil_or_concat after with rfl | ⟨after, d, rfl⟩
  · obtain ⟨rfl, hlast⟩ := List.append_inj' hcalls rfl
    exact hc id last (List.singleton_inj.mp hlast)
  · have hsnoc : s.calls ++ [c] = (before ++ .complete id last :: after) ++ [d] := by
      simpa using hcalls
    obtain ⟨hinit, -⟩ := List.append_inj' hsnoc rfl
    exact h.met before id last after hinit

/-- A job that was not armed before is armed with the number of its branches. -/
theorem arm (h : Logged p s) (hid : id ∈ p.ids) (hb : p.branches id ≠ [])
    (hknown : (s.counters.get? id).isSome = true) (hnone : s.arms p id = 0)
    (hcalls : s'.calls = s.calls ++ [.arm id (p.branches id).length])
    (hcounters : s'.counters = s.counters.arm id (p.branches id).length) : Logged p s' := by
  have hpos : 0 < (p.branches id).length := List.length_pos_of_ne_nil hb
  constructor
  case replayed => rw [hcounters, hcalls, replay_concat, ← h.replayed, CounterCall.apply]
  case armed =>
    intro k m hk
    rw [hcalls] at hk
    rcases List.mem_append.mp hk with hk | hk
    · exact h.armed k m hk
    · obtain ⟨rfl, rfl⟩ := CounterCall.arm.inj (List.mem_singleton.mp hk)
      exact ⟨hid, hb, rfl⟩
  case balance =>
    intro k
    have hbalance := h.balance k
    rw [hcounters, Counters.arm, State.counted_concat hcalls, State.arms_concat hcalls]
    by_cases hk : k = id
    · subst hk
      rw [hnone, Nat.zero_mul] at hbalance
      rw [Counters.outstanding_set_self hknown, hnone]
      simp
      omega
    · rw [Counters.outstanding_set_of_ne hk]
      simpa [Ne.symm hk] using hbalance
  case last =>
    intro k
    have hlast := h.last k
    rw [hcounters, Counters.arm, hcalls, List.count_append, State.arms_concat hcalls]
    by_cases hk : k = id
    · subst hk
      rw [hnone] at hlast
      rw [Counters.outstanding_set_self hknown, hnone]
      simp
      omega
    · rw [Counters.outstanding_set_of_ne hk]
      simpa [Ne.symm hk] using hlast
  case met =>
    intro before k last after hk
    refine h.met_concat (c := .arm id (p.branches id).length) ?_ (hcalls ▸ hk)
    intro k last he
    cases he

/-- An end is counted of a job for which something is outstanding. -/
theorem complete (h : Logged p s) (hn : s.counters.get? o = some (n + 1))
    (hcalls : s'.calls = s.calls ++ [.complete o (n == 0)])
    (hcounters : s'.counters = s.counters.set o n) : Logged p s' := by
  have hout : s.counters.outstanding o = n + 1 := Counters.outstanding_of_get? hn
  have hset : (s.counters.set o n).outstanding o = n :=
    Counters.outstanding_set_self (by rw [hn]; rfl) n
  constructor
  case replayed =>
    rw [hcounters, hcalls, replay_concat, ← h.replayed, CounterCall.apply, Counters.complete, hn]
  case armed =>
    intro k m hk
    rw [hcalls] at hk
    rcases List.mem_append.mp hk with hk | hk
    · exact h.armed k m hk
    · cases List.mem_singleton.mp hk
  case balance =>
    intro k
    have hbalance := h.balance k
    rw [hcounters, State.counted_concat hcalls, State.arms_concat hcalls]
    by_cases hk : k = o
    · subst hk
      rw [hout] at hbalance
      rw [hset]
      cases hz : n == 0 <;> simp <;> omega
    · rw [Counters.outstanding_set_of_ne hk]
      simpa [Ne.symm hk] using hbalance
  case last =>
    intro k
    have hlast := h.last k
    rw [hcounters, hcalls, List.count_append, State.arms_concat hcalls]
    by_cases hk : k = o
    · subst hk
      rw [hout] at hlast
      rw [hset]
      cases n with
      | zero => simpa using hlast
      | succ n => simpa using hlast
    · rw [Counters.outstanding_set_of_ne hk]
      simpa [Ne.symm hk] using hlast
  case met =>
    intro before k last after hk
    refine h.met_concat (c := .complete o (n == 0)) ?_ (hcalls ▸ hk)
    intro k last he
    obtain ⟨rfl, rfl⟩ := CounterCall.complete.inj he
    exact ⟨n, by rw [← h.replayed, hn], rfl⟩

end Logged

/-! ### Runs -/

theorem calls_handle (p : Plan) (s : State) (e : Event) :
    (s.handle p e).calls = s.calls ++ s.asks p e := by
  rw [handle_eq]

theorem counters_handle (p : Plan) (s : State) (e : Event) :
    (s.handle p e).counters = (s.asks p e).foldl CounterCall.apply s.counters := by
  rw [handle_eq]

/-- A job is armed only when its work has ended well. -/
theorem History.arms_le (h : History p limit past s) (id : JobId) :
    s.arms p id ≤ past.count (.workDone id false) := by
  refine h.induction (motive := fun past s => s.arms p id ≤ past.count (.workDone id false))
    ?_ ?_ ?_
  · simp [State.arms, Run.init]
  · intro past s e events _ ih _
    have hasks : (State.asks p { s with events := events } e).count
        (.arm id (p.branches id).length) ≤ [e].count (.workDone id false) := by
      cases e with
      | workDone k failed =>
        cases failed with
        | true => simp
        | false =>
          by_cases hb : p.branches k = []
          · simp [hb]
          · by_cases hk : k = id
            · subst hk
              simp [hb]
            · simp [hb, hk]
      | chainEnd owner failed => cases owner <;> simp
      | _ => simp
    rw [State.arms] at ih
    rw [State.arms, calls_handle, List.count_append, List.count_append]
    exact Nat.add_le_add ih hasks
  · intro past s f failed _ ih _
    exact ih

/-- The work of a job that is linked once ends once. -/
theorem History.worked_le_one (hp : p.LinkedOnce) (h : History p limit past s) (id : JobId) :
    (posted past s).count (.workDone id false) ≤ 1 := by
  have hworks := h.works_le id
  have hstarts := (count_le_posted past s (.start id)).trans (h.starts_le_one hp id)
  rw [works] at hworks
  omega

/-- What ends a chain under a job finds something outstanding for the job. -/
theorem Matches.outstanding_of_chainEnd {st : JobId → Stage} (hp : p.Branching)
    (hm : Matches p s st) {events : List Event} {failed : Bool}
    (he : s.events = .chainEnd (some o) failed :: events) :
    ∃ n, s.counters.get? o = some (n + 1) := by
  obtain ⟨k, hk, hev⟩ := hm.owner_of_event he
  obtain ⟨e, hst, hpar⟩ : ∃ e, st k = .telling e ∧ p.parent? k = some o := by
    cases hst : st k with
    | telling e =>
      rw [hst] at hev
      exact ⟨e, rfl, (Event.chainEnd.inj (Option.some.inj hev)).1⟩
    | _ =>
      rw [hst] at hev
      cases hev
  exact ⟨_, by rw [hm.counters o (hp.parent k o hpar).1, awaited_told hk hpar hst]⟩

/-- Each call of the counters in a run is as a log asks for. -/
theorem Reachable.logged (hp : p.Branching) (hl : p.LinkedOnce) (hs : Reachable p limit fails s) :
    Logged p s := by
  induction hs with
  | init => exact Logged.initial p
  | @move s t hs hmove ih =>
    obtain ⟨st, hc, hm⟩ := reachable_matches hp hs
    obtain ⟨past, hpast⟩ := exists_history hs
    cases hmove with
    | ending hw hf => exact ih.same rfl rfl
    | own hstep =>
      rcases step?_eq_some hstep with ⟨e, events, he, rfl⟩ | ⟨-, -, id, queue, -, rfl⟩
      · have hcalls := calls_handle p { s with events := events } e
        have hcounters := counters_handle p { s with events := events } e
        cases e with
        | start id => exact ih.same (hcalls.trans (List.append_nil _)) hcounters
        | subtreeDone id failed => exact ih.same (hcalls.trans (List.append_nil _)) hcounters
        | workDone id failed =>
          cases failed with
          | true => exact ih.same (hcalls.trans (List.append_nil _)) hcounters
          | false =>
            by_cases hb : p.branches id = []
            · simp only [State.asks, if_pos hb] at hcalls hcounters
              exact ih.same (hcalls.trans (List.append_nil _)) hcounters
            · simp only [State.asks, if_neg hb] at hcalls hcounters
              have hid : id ∈ p.ids := by
                obtain ⟨b, hmem⟩ := List.exists_mem_of_ne_nil _ hb
                exact (hp.parent b id (hp.branch id b hmem)).1
              have hone := hpast.worked_le_one hl id
              have harms := hpast.arms_le id
              rw [posted, List.count_append, he, List.count_cons_self] at hone
              refine ih.arm hid hb ?_ (by omega) hcalls hcounters
              rw [hm.counters id hid]
              rfl
        | chainEnd owner failed =>
          cases owner with
          | none => exact ih.same (hcalls.trans (List.append_nil _)) hcounters
          | some o =>
            obtain ⟨n, hn⟩ := hm.outstanding_of_chainEnd hp he
            have hcomplete : s.counters.complete o = (n == 0, s.counters.set o n) := by
              rw [Counters.complete, hn]
            simp only [State.asks, hcomplete] at hcalls hcounters
            refine ih.complete hn hcalls ?_
            rw [hcounters, List.foldl_cons, List.foldl_nil, CounterCall.apply, hcomplete]
      · split
        · exact ih.same rfl rfl
        · exact ih.same rfl rfl

end Run

end Workflow
