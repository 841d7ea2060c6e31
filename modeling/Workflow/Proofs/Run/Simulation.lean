import Workflow.Proofs.Run.Matching

/-!
Each move of a run of a plan advances one job. So the state that a run has come to is told by
stages that the jobs can have together.
-/

namespace Workflow

namespace Counters

theorem get?_ofSize {size : Nat} {id : JobId} (h : 1 ≤ id ∧ id ≤ size) :
    (ofSize size).get? id = some 0 := by
  cases id with
  | zero => simp at h
  | succ id =>
    have hlt : id < size := h.2
    simp [ofSize, get?, hlt]

theorem get?_set (c : Counters) (id k : JobId) (n : Nat) :
    (c.set id n).get? k = if k = id then (c.get? id).map fun _ => n else c.get? k := by
  cases id with
  | zero =>
    by_cases hk : k = 0
    · simp [hk, get?]
    · simp [hk, set]
  | succ id =>
    cases k with
    | zero => simp [get?]
    | succ k =>
      simp only [set, get?, List.getElem?_set]
      by_cases hk : k = id
      · subst hk
        by_cases hlt : k < c.counts.length <;> simp [hlt]
      · simp [hk, Ne.symm hk]

end Counters

namespace Run

variable {p : Plan} {s : State} {st : JobId → Stage} {id : JobId} {x : Stage}
  {fails : JobId → Bool} {events : List Event}

/-- A job whose event is handled may call jobs and get another event. -/
theorem Matches.handled {e : Event} {ids : List JobId} {statuses : SortedMap JobId Status}
    {counters : Counters} (calls : List CounterCall) (h : Matches p s st) (hid : id ∈ p.ids)
    (he : s.events = e :: events) (hst : (st id).event? p id = some e) (hids : Fresh p st ids)
    (hx : x.Quiet) (hsent : p.isStructural id = false → x.isSent = (st id).isSent)
    (hstatus : ∀ k, statuses.get? k = if k ∈ p.ids then
      some ((Function.update (callAll ids st) id x k).status (p.isStructural k)) else none)
    (hcounters : ∀ o ∈ p.ids,
      counters.get? o = some (awaited p (Function.update (callAll ids st) id x) o)) :
    Matches p
      { s with
        events := events ++ (ids.map .start ++ (x.event? p id).toList)
        statuses := statuses
        counters := counters
        calls := calls }
      (Function.update (callAll ids st) id x) := by
  have hy := Stage.quiet_of_event? hst
  have hbegun : st id ≠ .idle := by
    intro hidle
    rw [hidle] at hst
    cases hst
  have hsame := hids.callAll_of_begun hbegun
  exact {
    pooled := by
      have hcalled := h.pooled.callAll hids
      refine hcalled.update rfl rfl rfl ?_ ?_ ?_
      · simp [hsame, hx.queued, hy.queued]
      · simp [hsame, hx.flying, hy.flying]
      · rw [hsame]
        exact hsent
    statuses := hstatus
    events := by
      have hpop : ∀ k, (((callAll ids st id).event? p id).toList ++
          (events ++ ids.map Event.start)).count k = waits p (callAll ids st) k := by
        intro k
        rw [waits_callAll hids, hsame, ← List.append_assoc, List.count_append,
          h.events_pop he hst]
      have hev := waits_update (x := x) hid hpop
      rw [List.append_assoc] at hev
      exact hev
    counters := hcounters
    failedOwners := by
      refine h.failedOwners_same fun k => ?_
      rw [apply_update (·.phase.isLost) (by rw [hsame, hx.lost, hy.lost])]
      exact hids.apply_callAll (·.phase.isLost) rfl k
    finished := by
      refine h.finished_same fun k => ?_
      rw [apply_update (·.ended?) (by rw [hsame, hx.ended, hy.ended])]
      exact hids.apply_callAll (·.ended?) rfl k }

/-- A job whose event is handled may get another event, with nothing changed but its status. -/
theorem Matches.hand_on {e e' : Event} {statuses : SortedMap JobId Status} (h : Matches p s st)
    (hid : id ∈ p.ids) (he : s.events = e :: events) (hst : (st id).event? p id = some e)
    (hx : x.event? p id = some e') (hlive : x.phase.isLive = (st id).phase.isLive)
    (hsent : p.isStructural id = false → x.isSent = (st id).isSent)
    (hstatus : ∀ k, statuses.get? k =
      if k ∈ p.ids then some ((Function.update st id x k).status (p.isStructural k)) else none) :
    Matches p { s with events := events ++ [e'], statuses := statuses }
      (Function.update st id x) := by
  have hcounters := h.counters_same hid hlive
  rw [← callAll_nil st] at hstatus hcounters
  have hquiet := Stage.quiet_of_event? hx
  have hmatch := h.handled s.calls hid he hst (Fresh.nil p st) hquiet hsent hstatus hcounters
  rw [callAll_nil, hx] at hmatch
  exact hmatch

theorem matches_start (h : Matches p s st) (hid : id ∈ p.ids)
    (he : s.events = .start id :: events) (hst : st id = .called) :
    Matches p ({ s with events := events }.start p id)
      (Function.update st id (if p.isStructural id then .worked false else .queued)) := by
  cases hs : p.isStructural id with
  | true =>
    rw [State.start, hs]
    refine h.hand_on hid he (by rw [hst]; rfl) rfl (by rw [hst]; rfl) ?_ ?_
    · simp [hs]
    · exact h.statuses_mark hid (by rw [hs]; rfl)
  | false =>
    rw [State.start, hs]
    have hnot : id ∉ s.queue := by simp [h.pooled.queue, hst]
    exact {
      pooled := {
        queue_nodup := by
          simpa [List.nodup_append] using
            ⟨h.pooled.queue_nodup, fun k hk hne => hnot (hne ▸ hk)⟩
        queue := by grind [h.pooled.queue, Function.update_apply]
        flights_nodup := h.pooled.flights_nodup
        flights := by grind [h.pooled.flights, Function.update_apply, State.mark]
        dispatched_nodup := h.pooled.dispatched_nodup
        dispatched := by
          grind [h.pooled.dispatched, Function.update_apply, State.mark, Stage.isSent] }
      statuses := h.statuses_mark hid rfl
      events := by
        have hev := waits_update (x := .queued) hid (h.events_pop he (by rw [hst]; rfl))
        simpa [Stage.event?, State.mark] using hev
      counters := h.counters_same hid (by rw [hst]; rfl)
      failedOwners := h.failedOwners_same (apply_update (·.phase.isLost) (by rw [hst]; rfl))
      finished := h.finished_same (apply_update (·.ended?) (by rw [hst]; rfl)) }

theorem matches_dispatch {queue : List JobId} (h : Matches p s st) (hid : id ∈ p.ids)
    (hq : s.queue = id :: queue) (hst : st id = .queued) (hs : p.isStructural id = false) :
    Matches p ({ s with queue := queue }.dispatch id) (Function.update st id .flying) := by
  obtain ⟨hnot, hnd⟩ := List.nodup_cons.mp (hq ▸ h.pooled.queue_nodup)
  have hflight : id ∉ s.inFlight.map Flight.id := by simp [h.pooled.flights, hst]
  have hsent : id ∉ s.dispatched := by simp [h.pooled.dispatched, hst, Stage.isSent]
  exact {
    pooled := {
      queue_nodup := hnd
      queue := by grind [h.pooled.queue, Function.update_apply, State.mark, State.dispatch]
      flights_nodup := by
        simpa [State.dispatch, State.mark, List.nodup_append] using
          ⟨h.pooled.flights_nodup, fun k hk hne => hflight (List.mem_map.mpr ⟨k, hk, hne⟩)⟩
      flights := by grind [h.pooled.flights, Function.update_apply, State.mark, State.dispatch]
      dispatched_nodup := by
        simpa [State.dispatch, State.mark, List.nodup_append] using
          ⟨h.pooled.dispatched_nodup, fun k hk hne => hsent (hne ▸ hk)⟩
      dispatched := by
        grind [h.pooled.dispatched, Function.update_apply, State.mark, State.dispatch,
          Stage.isSent] }
    statuses := h.statuses_mark hid rfl
    events := by
      have hev := waits_update (x := .flying) hid (h.events_push (by rw [hst]; rfl))
      simpa [Stage.event?, State.mark, State.dispatch] using hev
    counters := h.counters_same hid (by rw [hst]; rfl)
    failedOwners := h.failedOwners_same (apply_update (·.phase.isLost) (by rw [hst]; rfl))
    finished := h.finished_same (apply_update (·.ended?) (by rw [hst]; rfl)) }

theorem mem_erase_flights {fs : List Flight} {f : Flight} (hnd : (fs.map Flight.id).Nodup)
    (hf : f ∈ fs) (k : JobId) :
    k ∈ (fs.erase f).map Flight.id ↔ k ≠ f.id ∧ k ∈ fs.map Flight.id := by
  have hfs : fs.Nodup := List.Nodup.of_map Flight.id hnd
  constructor
  · intro hk
    obtain ⟨g, hg, rfl⟩ := List.mem_map.mp hk
    obtain ⟨hne, hg⟩ := hfs.mem_erase_iff.mp hg
    exact ⟨fun he => hne (List.inj_on_of_nodup_map hnd hg hf he), List.mem_map_of_mem hg⟩
  · intro hx
    obtain ⟨hne, hk⟩ := hx
    obtain ⟨g, hg, rfl⟩ := List.mem_map.mp hk
    exact List.mem_map_of_mem (hfs.mem_erase_iff.mpr ⟨fun he => hne (congrArg Flight.id he), hg⟩)

theorem matches_finish {f : Flight} {failed : Bool} (h : Matches p s st) (hid : f.id ∈ p.ids)
    (hf : f ∈ s.inFlight) (hst : st f.id = .flying) :
    Matches p (s.finish f failed) (Function.update st f.id (.worked failed)) where
  pooled := {
    queue_nodup := h.pooled.queue_nodup
    queue := by grind [h.pooled.queue, Function.update_apply, State.finish, State.post]
    flights_nodup := h.pooled.flights_nodup.sublist (List.erase_sublist.map _)
    flights := by
      intro k
      refine (mem_erase_flights h.pooled.flights_nodup hf k).trans ?_
      grind [h.pooled.flights, Function.update_apply]
    dispatched_nodup := h.pooled.dispatched_nodup
    dispatched := by
      grind [h.pooled.dispatched, Function.update_apply, State.finish, State.post,
        Stage.isSent] }
  statuses := h.statuses_same hid (by rw [hst]; rfl)
  events := waits_update (x := .worked failed) hid (h.events_push (by rw [hst]; rfl))
  counters := h.counters_same hid (by rw [hst]; rfl)
  failedOwners := h.failedOwners_same (apply_update (·.phase.isLost) (by rw [hst]; rfl))
  finished := h.finished_same (apply_update (·.ended?) (by rw [hst]; rfl))

theorem matches_fail (h : Matches p s st) (hid : id ∈ p.ids)
    (he : s.events = .workDone id true :: events) (hst : st id = .worked true) :
    Matches p ({ s with events := events }.workDone p id true)
      (Function.update st id (.telling .broken)) :=
  h.hand_on hid he (by rw [hst]; rfl) rfl (by rw [hst]; rfl) (fun _ => by rw [hst]; rfl)
    (h.statuses_mark hid rfl)

/-! ### Own work done -/

/-- The statuses when the own work of a job is done. -/
def State.opened (p : Plan) (s : State) (id : JobId) : SortedMap JobId Status :=
  if p.isStructural id then s.statuses else s.statuses.insert id .complete

theorem workDone_leaf (hb : p.branches id = []) :
    s.workDone p id false =
      { s with statuses := s.opened p id, events := s.events ++ [.subtreeDone id false] } := by
  rw [State.workDone, hb, State.opened]
  cases p.isStructural id <;> rfl

theorem workDone_branches (hb : p.branches id ≠ []) :
    s.workDone p id false =
      { s with
        statuses := s.opened p id
        counters := s.counters.arm id (p.branches id).length
        calls := s.calls ++ [CounterCall.arm id (p.branches id).length]
        events := s.events ++ (p.branches id).map .start } := by
  obtain ⟨b, bs, hbs⟩ := List.exists_cons_of_ne_nil hb
  rw [State.workDone, hbs, State.opened]
  cases p.isStructural id <;> rfl

theorem Matches.statuses_opened {st' : JobId → Stage} (h : Matches p s st) (hid : id ∈ p.ids)
    (hst : st id = .worked false)
    (hx : x.status (p.isStructural id) = if p.isStructural id then .running else .complete)
    (hrest : ∀ k, (st' k).status (p.isStructural k) = (st k).status (p.isStructural k))
    (k : JobId) :
    (s.opened p id).get? k = if k ∈ p.ids then
      some ((Function.update st' id x k).status (p.isStructural k)) else none := by
  refine h.statuses_of hid ?_ (fun k hk => ?_) hrest k
  · rw [hx, State.opened]
    split
    · rename_i hs
      rw [h.statuses, if_pos hid, hst, hs]
      rfl
    · rw [SortedMap.get?_insert, if_pos rfl]
  · rw [State.opened]
    split
    · rfl
    · rw [SortedMap.get?_insert, if_neg hk]

theorem matches_close (h : Matches p s st) (hid : id ∈ p.ids)
    (he : s.events = .workDone id false :: events) (hst : st id = .worked false)
    (hb : p.branches id = []) :
    Matches p ({ s with events := events }.workDone p id false)
      (Function.update st id (.closing false)) := by
  rw [workDone_leaf hb]
  exact h.hand_on hid he (by rw [hst]; rfl) rfl (by rw [hst]; rfl) (fun _ => by rw [hst]; rfl)
    (h.statuses_opened hid hst rfl fun _ => rfl)

theorem awaited_of_idle (h : ∀ c, p.parent? c = some id → st c = .idle) :
    awaited p st id = 0 := by
  refine total_eq_zero fun c _ => ?_
  rw [if_neg]
  intro hc
  rw [h c hc.1] at hc
  cases hc.2

/-- A job that calls its branches waits for all of them. -/
theorem Matches.counters_armed (hp : p.Branching) (h : Matches p s st) (hid : id ∈ p.ids)
    (hst : st id = .worked false) (hchild : ∀ c, p.parent? c = some id → st c = .idle)
    (hids : Fresh p st (p.branches id)) :
    ∀ o ∈ p.ids, (s.counters.arm id (p.branches id).length).get? o =
      some (awaited p (Function.update (callAll (p.branches id) st) id .waiting) o) := by
  intro o ho
  have hlive : Stage.waiting.phase.isLive = (callAll (p.branches id) st id).phase.isLive := by
    rw [hids.callAll_of_begun (by simp [hst]), hst]
    rfl
  rw [awaited_update_same hid hlive, awaited_callAll hids, Counters.arm, Counters.get?_set]
  by_cases hoid : o = id
  · subst hoid
    have hall : (p.branches o).countP (fun k => p.parent? k = some o) = (p.branches o).length := by
      rw [List.countP_eq_length]
      simpa using hp.branch o
    rw [if_pos rfl, h.counters o ho, awaited_of_idle hchild, hall, Nat.zero_add]
    rfl
  · have hnone : (p.branches id).countP (fun k => p.parent? k = some o) = 0 := by
      rw [List.countP_eq_zero]
      intro k hk
      simp [hp.branch id k hk, Ne.symm hoid]
    rw [if_neg hoid, h.counters o ho, hnone, Nat.add_zero]

theorem matches_branch (hp : p.Branching) (hc : Consistent p fails st) (h : Matches p s st)
    (hid : id ∈ p.ids) (he : s.events = .workDone id false :: events)
    (hst : st id = .worked false) (hb : p.branches id ≠ []) :
    Matches p ({ s with events := events }.workDone p id false)
      (Function.update (callAll (p.branches id) st) id .waiting) := by
  have hopen : (st id).phase.isOpen = false := by
    rw [hst]
    rfl
  have hids := hc.fresh_branches hp hopen
  have hstatus : ∀ k, (s.opened p id).get? k = if k ∈ p.ids then
      some ((Function.update (callAll (p.branches id) st) id .waiting k).status
        (p.isStructural k)) else none :=
    h.statuses_opened hid hst rfl fun k => hids.apply_callAll (·.status _) rfl k
  have hcounters := h.counters_armed hp hid hst (fun _ => hc.child_idle hopen) hids
  have hmatch := h.handled (s.calls ++ [CounterCall.arm id (p.branches id).length]) hid he
    (by rw [hst]; rfl) hids ⟨by simp, by simp, rfl, rfl⟩ (fun _ => by rw [hst]; rfl) hstatus
    hcounters
  rw [Stage.event?, Option.toList_none, List.append_nil] at hmatch
  rw [workDone_branches hb]
  exact hmatch

/-! ### All below a job done -/

/-- The statuses when all below a job is done. -/
def State.settled (p : Plan) (s : State) (id : JobId) (failed : Bool) : SortedMap JobId Status :=
  if p.isStructural id then s.statuses.insert id (if failed then .failed else .complete)
  else s.statuses

theorem subtreeDone_end {failed : Bool} (hn : failed = true ∨ p.next? id = none) :
    s.subtreeDone p id failed =
      { s with
        statuses := s.settled p id failed
        events := s.events ++ [.chainEnd (p.parent? id) failed] } := by
  unfold State.subtreeDone State.settled
  obtain rfl | hn := hn
  · cases p.next? id <;> cases p.isStructural id <;> rfl
  · rw [hn]
    cases p.isStructural id <;> rfl

theorem subtreeDone_next {n : JobId} (hn : p.next? id = some n) :
    s.subtreeDone p id false =
      { s with statuses := s.settled p id false, events := s.events ++ [.start n] } := by
  unfold State.subtreeDone State.settled
  simp only [hn]
  cases p.isStructural id <;> rfl

theorem Matches.statuses_settled {failed : Bool} {st' : JobId → Stage} (h : Matches p s st)
    (hid : id ∈ p.ids) (hst : st id = .closing failed)
    (hx : x.status (p.isStructural id) =
      if p.isStructural id && failed then .failed else .complete)
    (hrest : ∀ k, (st' k).status (p.isStructural k) = (st k).status (p.isStructural k))
    (k : JobId) :
    (s.settled p id failed).get? k = if k ∈ p.ids then
      some ((Function.update st' id x k).status (p.isStructural k)) else none := by
  refine h.statuses_of hid ?_ (fun k hk => ?_) hrest k
  · rw [hx, State.settled]
    cases hs : p.isStructural id with
    | true =>
      rw [if_pos rfl, SortedMap.get?_insert, if_pos rfl, Bool.true_and]
    | false =>
      rw [if_neg (by simp), h.statuses, if_pos hid, hst, hs]
      rfl
  · rw [State.settled]
    split
    · rw [SortedMap.get?_insert, if_neg hk]
    · rfl

theorem matches_settle {failed : Bool} (h : Matches p s st) (hid : id ∈ p.ids)
    (he : s.events = .subtreeDone id failed :: events) (hst : st id = .closing failed)
    (hn : failed = true ∨ p.next? id = none) :
    Matches p ({ s with events := events }.subtreeDone p id failed)
      (Function.update st id (.telling (.settled failed))) := by
  rw [subtreeDone_end hn]
  exact h.hand_on hid he (by rw [hst]; rfl) rfl (by rw [hst]; rfl) (fun _ => by rw [hst]; rfl)
    (h.statuses_settled hid hst rfl fun _ => rfl)

/-- A job that is passed leaves the job after it for their owner to wait for. -/
theorem awaited_passed {n : JobId} (hid : id ∈ p.ids) (hst : st id = .closing false)
    (hids : Fresh p st [n]) (hpar : p.parent? n = p.parent? id) (o : JobId) :
    awaited p (Function.update (callAll [n] st) id .passed) o = awaited p st o := by
  have hcall := awaited_callAll hids o
  have hup := awaited_update (callAll [n] st) .passed hid o
  rw [hids.callAll_of_begun (by simp [hst]), hst] at hup
  by_cases hpo : p.parent? id = some o
  · simp [Stage.phase, Phase.isLive, hpar, hpo] at hcall hup
    omega
  · simp [Stage.phase, Phase.isLive, hpar, hpo] at hcall hup
    omega

theorem matches_pass (hp : p.Branching) (hc : Consistent p fails st) (h : Matches p s st)
    (hid : id ∈ p.ids) {n : JobId} (he : s.events = .subtreeDone id false :: events)
    (hst : st id = .closing false) (hn : p.next? id = some n) :
    Matches p ({ s with events := events }.subtreeDone p id false)
      (Function.update (callAll [n] st) id .passed) := by
  have hids := hc.fresh_next hp hn (by simp [hst])
  have hstatus : ∀ k, (s.settled p id false).get? k = if k ∈ p.ids then
      some ((Function.update (callAll [n] st) id .passed k).status (p.isStructural k)) else none :=
    h.statuses_settled hid hst (by simp [Stage.status]) fun k =>
      hids.apply_callAll (·.status _) rfl k
  have hcounters : ∀ o ∈ p.ids, s.counters.get? o =
      some (awaited p (Function.update (callAll [n] st) id .passed) o) := by
    intro o ho
    rw [awaited_passed hid hst hids (hp.next id n hn).2.2, h.counters o ho]
  have hmatch := h.handled s.calls hid he (by rw [hst]; rfl) hids ⟨by simp, by simp, rfl, rfl⟩
    (fun _ => by rw [hst]; rfl) hstatus hcounters
  rw [subtreeDone_next hn]
  exact hmatch

/-! ### Owners told -/

/-- The chain of the root has no owner, and its end is the end of the run. -/
theorem matches_tell_root {e : Ending} (h : Matches p s st) (hid : id ∈ p.ids)
    (hroot : id = p.root) (hpar : p.parent? id = none)
    (he : s.events = .chainEnd none e.failed :: events) (hst : st id = .telling e) :
    Matches p ({ s with events := events }.chainEnd none e.failed)
      (Function.update st id (.told e)) where
  pooled := h.pooled.update rfl rfl rfl (by simp [hst]) (by simp [hst]) fun _ => by rw [hst]; rfl
  statuses := h.statuses_same hid (by rw [hst]; cases e <;> rfl)
  events := by
    have hev := waits_update (x := .told e) hid
      (h.events_pop he (by rw [hst, Stage.event?, hpar]))
    simpa [Stage.event?, State.chainEnd] using hev
  counters := by
    intro o ho
    have hup := awaited_update st (.told e) hid o
    have hsum : awaited p (Function.update st id (.told e)) o = awaited p st o := by
      simpa [hpar] using hup
    exact (h.counters o ho).trans (congrArg some hsum.symm)
  failedOwners := by
    intro o
    refine (h.failedOwners o).trans (exists_congr fun c => and_congr_right fun hc => ?_)
    have hne : c ≠ id := by
      rintro rfl
      simp [hpar] at hc
    rw [Function.update_of_ne hne]
  finished := by
    rw [hroot, Function.update_self]
    rfl

/-- What is left of the events, the counters and the owners when an owner was told. -/
def State.toldTo (s : State) (o : JobId) (failed : Bool) : State :=
  { s with
    failedOwners := if failed then o :: s.failedOwners else s.failedOwners
    counters := (s.counters.complete o).2
    calls := s.calls ++ [CounterCall.complete o (s.counters.complete o).1] }

theorem awaited_told {o : JobId} {e : Ending} (hid : id ∈ p.ids) (hpar : p.parent? id = some o)
    (hst : st id = .telling e) :
    awaited p st o = awaited p (Function.update st id (.told e)) o + 1 := by
  have hup := awaited_update st (.told e) hid o
  rw [Consistent.isLive_of_telling hst] at hup
  simpa [hpar, Stage.phase, Phase.isLive] using hup.symm

theorem complete_told {o : JobId} {e : Ending} (h : Matches p s st) (hid : id ∈ p.ids)
    (ho : o ∈ p.ids) (hpar : p.parent? id = some o) (hst : st id = .telling e) :
    s.counters.complete o = (awaited p (Function.update st id (.told e)) o == 0,
      s.counters.set o (awaited p (Function.update st id (.told e)) o)) := by
  rw [Counters.complete, h.counters o ho, awaited_told hid hpar hst]

theorem matches_tell {o : JobId} {e : Ending} (hp : p.Branching) (h : Matches p s st)
    (hid : id ∈ p.ids) (hpar : p.parent? id = some o)
    (he : s.events = .chainEnd (some o) e.failed :: events) (hst : st id = .telling e) :
    Matches p ({ s with events := events }.toldTo o e.failed) (Function.update st id (.told e)) where
  pooled := h.pooled.update rfl rfl rfl (by simp [hst]) (by simp [hst]) fun _ => by rw [hst]; rfl
  statuses := h.statuses_same hid (by rw [hst]; cases e <;> rfl)
  events := by
    have hev := waits_update (x := .told e) hid
      (h.events_pop he (by rw [hst, Stage.event?, hpar]))
    simpa [Stage.event?, State.toldTo] using hev
  counters := by
    intro q hq
    have hcomplete := complete_told h hid (hp.parent id o hpar).1 hpar hst
    simp only [State.toldTo, hcomplete]
    rw [Counters.get?_set]
    by_cases hqo : q = o
    · subst hqo
      rw [if_pos rfl, h.counters q hq]
      rfl
    · have hup := awaited_update st (.told e) hid q
      have hsum : awaited p (Function.update st id (.told e)) q = awaited p st q := by
        simpa [hpar, Ne.symm hqo] using hup
      rw [if_neg hqo, h.counters q hq, hsum]
  failedOwners := by
    intro q
    have hlost : (st id).phase.isLost = false := by
      rw [hst]
      cases e <;> rfl
    have htold : (Stage.told e).phase.isLost = e.failed := rfl
    have hbefore := h.failedOwners q
    simp only [State.toldTo]
    cases hf : e.failed with
    | true =>
      rw [if_pos rfl, List.mem_cons, hbefore]
      grind [Function.update_apply]
    | false =>
      rw [if_neg Bool.false_ne_true, hbefore]
      grind [Function.update_apply]
  finished := by
    have hne : p.root ≠ id := by
      rintro rfl
      rw [hp.root_parent] at hpar
      cases hpar
    rw [Function.update_of_ne hne]
    exact h.finished

theorem matches_settled {o : JobId} {failed : Bool} (h : Matches p s st) (ho : o ∈ p.ids)
    (hst : st o = .waiting) :
    Matches p (s.post [.subtreeDone o failed]) (Function.update st o (.closing failed)) where
  pooled := h.pooled.update rfl rfl rfl (by simp [hst]) (by simp [hst]) fun _ => by rw [hst]; rfl
  statuses := h.statuses_same ho (by rw [hst]; rfl)
  events := waits_update (x := .closing failed) ho (h.events_push (by rw [hst]; rfl))
  counters := h.counters_same ho (by rw [hst]; rfl)
  failedOwners := h.failedOwners_same (apply_update (·.phase.isLost) (by rw [hst]; rfl))
  finished := h.finished_same (apply_update (·.ended?) (by rw [hst]; rfl))

theorem chainEnd_some (s : State) (o : JobId) (failed : Bool) :
    s.chainEnd (some o) failed =
      if (s.counters.complete o).1 then
        (s.toldTo o failed).post [.subtreeDone o (o ∈ (s.toldTo o failed).failedOwners)]
      else s.toldTo o failed := rfl

theorem matches_chainEnd {e : Ending} (hp : p.Branching) (hc : Consistent p fails st)
    (h : Matches p s st) (hid : id ∈ p.ids)
    (he : s.events = .chainEnd (p.parent? id) e.failed :: events) (hst : st id = .telling e) :
    ∃ st', Advance p fails st st' ∧
      Matches p ({ s with events := events }.chainEnd (p.parent? id) e.failed) st' := by
  cases hpar : p.parent? id with
  | none =>
    rw [hpar] at he
    refine ⟨_, .tell hst ?_, matches_tell_root h hid (hp.parent_none id hid hpar) hpar he hst⟩
    simp [hpar]
  | some o =>
    rw [hpar] at he
    have hoid := (hp.parent id o hpar).1
    have hlt := (hp.parent id o hpar).2
    have htold := matches_tell hp h hid hpar he hst
    have hne : o ≠ id := by lia
    rw [chainEnd_some, complete_told h hid hoid hpar hst]
    -- The counter of the owner is the number of its live children: at zero no other one is live.
    by_cases hzero : awaited p (Function.update st id (.told e)) o = 0
    · rw [if_pos (by simpa using hzero)]
      refine ⟨_, .tellLast hst hpar ?_ ?_, matches_settled htold hoid ?_⟩
      · intro c hcid hco
        by_contra hl
        have hcids := Plan.mem_ids_of_parent? hco
        have := le_total (fun id x => if p.parent? id = some o ∧ x.phase.isLive = true then 1 else 0)
          (Function.update st id (.told e)) hcids
        rw [Function.update_of_ne hcid, if_pos ⟨hco, by simpa using hl⟩] at this
        simp only [awaited] at hzero
        omega
      · rw [decide_eq_true_eq]
        exact htold.failedOwners o
      · rw [Function.update_of_ne hne, hc.owner_waiting hst hpar]
    · rw [if_neg (by simpa using hzero)]
      refine ⟨_, .tell hst ?_, htold⟩
      intro q hq
      obtain rfl : o = q := Option.some.inj (hpar.symm.trans hq)
      obtain ⟨c, -, hg⟩ := exists_of_total_pos (Nat.pos_of_ne_zero hzero)
      have hcase : p.parent? c = some o ∧
          (Function.update st id (.told e) c).phase.isLive = true := by
        by_contra hcon
        rw [if_neg hcon] at hg
        cases hg
      have hcid : c ≠ id := by
        rintro rfl
        simp [Stage.phase, Phase.isLive] at hcase
      exact ⟨c, hcid, hcase.1, by simpa [Function.update_of_ne hcid] using hcase.2⟩

/-! ### Runs -/

theorem matches_handle {e : Event} (hp : p.Branching) (hc : Consistent p fails st)
    (h : Matches p s st) (he : s.events = e :: events) :
    ∃ st', Advance p fails st st' ∧ Matches p ({ s with events := events }.handle p e) st' := by
  obtain ⟨id, hid, hev⟩ := h.owner_of_event he
  cases hst : st id with
  | called =>
    obtain rfl : Event.start id = e := by simpa [hst, Stage.event?] using hev
    exact ⟨_, .start hst, matches_start h hid he hst⟩
  | worked failed =>
    obtain rfl : Event.workDone id failed = e := by simpa [hst, Stage.event?] using hev
    cases failed with
    | true => exact ⟨_, .fail hst, matches_fail h hid he hst⟩
    | false =>
      by_cases hb : p.branches id = []
      · exact ⟨_, .close hst hb, matches_close h hid he hst hb⟩
      · exact ⟨_, .branch hst hb, matches_branch hp hc h hid he hst hb⟩
  | closing failed =>
    obtain rfl : Event.subtreeDone id failed = e := by simpa [hst, Stage.event?] using hev
    cases hn : p.next? id with
    | none => exact ⟨_, .settle hst (.inr hn), matches_settle h hid he hst (.inr hn)⟩
    | some n =>
      cases failed with
      | true => exact ⟨_, .settle hst (.inl rfl), matches_settle h hid he hst (.inl rfl)⟩
      | false => exact ⟨_, .pass hst hn, matches_pass hp hc h hid he hst hn⟩
  | telling e' =>
    obtain rfl : Event.chainEnd (p.parent? id) e'.failed = e := by
      simpa [hst, Stage.event?] using hev
    exact matches_chainEnd hp hc h hid he hst
  | _ => simp [hst, Stage.event?] at hev

/-- The machine steps by handling an event or, if there is none, by taking a job off the queue. -/
theorem step?_eq_some {limit : Nat} {t : State} (h : s.step? p limit = some t) :
    (∃ e events, s.events = e :: events ∧ { s with events := events }.handle p e = t) ∨
    (s.events = [] ∧ s.inFlight.length < max limit 1 ∧ ∃ id queue, s.queue = id :: queue ∧
      (if (p.get? id).isSome then { s with queue := queue }.dispatch id
        else { s with queue := queue }) = t) := by
  unfold State.step? at h
  split at h
  · rename_i e events he
    exact .inl ⟨e, events, he, Option.some.inj h⟩
  · rename_i he
    split at h
    · rename_i hroom
      split at h
      · cases h
      · rename_i id queue hq
        exact .inr ⟨he, hroom, id, queue, hq, Option.some.inj h⟩
    · cases h

/-- The machine waits when there is no event and no room or nothing in the queue. -/
theorem step?_eq_none {limit : Nat} (h : s.step? p limit = none) :
    s.events = [] ∧ (s.inFlight.length < max limit 1 → s.queue = []) := by
  unfold State.step? at h
  split at h
  · cases h
  · rename_i he
    refine ⟨he, fun hroom => ?_⟩
    rw [if_pos hroom] at h
    split at h
    · assumption
    · cases h

/-- Every move of a run advances one job. -/
theorem matches_move {limit : Nat} {t : State} (hp : p.Branching) (hc : Consistent p fails st)
    (h : Matches p s st) (hm : Move p limit fails s t) :
    ∃ st', Advance p fails st st' ∧ Matches p t st' := by
  cases hm with
  | own hstep =>
    rcases step?_eq_some hstep with ⟨e, events, he, rfl⟩ | ⟨-, -, id, queue, hq, rfl⟩
    · exact matches_handle hp hc h he
    · have hst : st id = .queued := (h.pooled.queue id).mp (by simp [hq])
      have hid : id ∈ p.ids := hc.mem_ids (by simp [hst])
      have hs : p.isStructural id = false := by simpa [hst, Stage.Fits] using hc.fits id
      rw [if_pos (Plan.get?_isSome.mpr hid)]
      exact ⟨_, .dispatch hst, matches_dispatch h hid hq hst hs⟩
  | ending hw hf =>
    rename_i f
    have hst : st f.id = .flying := (h.pooled.flights f.id).mp (List.mem_map_of_mem hf)
    have hid : f.id ∈ p.ids := hc.mem_ids (by simp [hst])
    exact ⟨_, .finish hst, matches_finish h hid hf hst⟩

theorem Stages.initial_apply (p : Plan) (id : JobId) :
    Stages.initial p id = if id = p.root then .called else .idle := by
  rw [Stages.initial, Function.update_apply]

theorem waits_initial (hp : p.Branching) (e : Event) :
    [Event.start p.root].count e = waits p (Stages.initial p) e := by
  have hsum := total_update (fun id x => if x.event? p id = some e then 1 else 0)
    (fun _ => .idle) .called hp.root
  have hzero : total p (fun id x => if x.event? p id = some e then 1 else 0)
      (fun _ => .idle) = 0 := total_eq_zero fun _ _ => rfl
  rw [hzero] at hsum
  rw [List.count_singleton, waits, Stages.initial]
  simpa [Stage.event?] using hsum.symm

theorem awaited_initial (hp : p.Branching) (o : JobId) : awaited p (Stages.initial p) o = 0 := by
  refine total_eq_zero fun id _ => ?_
  rw [if_neg]
  intro hx
  obtain ⟨hpar, hlive⟩ := hx
  rw [Stages.initial_apply] at hlive
  split at hlive
  · rename_i hroot
    rw [hroot, hp.root_parent] at hpar
    cases hpar
  · cases hlive

theorem matches_init (hp : p.Branching) : Matches p (Run.init p) (Stages.initial p) where
  pooled := {
    queue_nodup := List.Pairwise.nil
    queue := by
      intro id
      rw [Stages.initial_apply]
      split <;> simp [Run.init]
    flights_nodup := List.Pairwise.nil
    flights := by
      intro id
      rw [Stages.initial_apply]
      split <;> simp [Run.init]
    dispatched_nodup := List.Pairwise.nil
    dispatched := by
      intro id
      rw [Stages.initial_apply]
      split <;> simp [Run.init, Stage.isSent] }
  statuses := by
    intro id
    have hstatus : (Stages.initial p id).status (p.isStructural id) = .initialized := by
      rw [Stages.initial_apply]
      split <;> rfl
    rw [hstatus]
    exact SortedMap.get?_ofList_map (f := fun _ => Status.initialized) p.table.keys_ascend id
  events := waits_initial hp
  counters := by
    intro o ho
    rw [awaited_initial hp o]
    exact Counters.get?_ofSize (by simpa [Plan.mem_ids_iff] using ho)
  failedOwners := by
    intro o
    have hnot : ∀ c, (Stages.initial p c).phase.isLost = false := by
      intro c
      rw [Stages.initial_apply]
      split <;> rfl
    simp [Run.init, hnot]
  finished := by
    rw [Stages.initial_apply, if_pos rfl]
    rfl

/-- Every state that a run comes to is told by stages that the jobs can have together. -/
theorem reachable_matches {limit : Nat} (hp : p.Branching) (h : Reachable p limit fails s) :
    ∃ st, Consistent p fails st ∧ Matches p s st := by
  induction h with
  | init => exact ⟨_, Consistent.initial hp fails, matches_init hp⟩
  | move _ hm ih =>
    obtain ⟨st, hc, hs⟩ := ih
    obtain ⟨st', ha, ht⟩ := matches_move hp hc hs hm
    exact ⟨st', hc.advance hp ha, ht⟩

end Run

end Workflow
