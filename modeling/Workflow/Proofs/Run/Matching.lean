import Workflow.Proofs.Run.Total

/-!
The state of a run and the stages of its jobs. Every field of a state can be told from the stages,
up to the order of events, of the queue and of the units in flight; each move of a run is an
advance of one job.
-/

namespace Workflow

namespace Run

namespace Stage

/-- The event that is waiting for a job. -/
def event? (p : Plan) (id : JobId) : Stage → Option Event
  | called => some (.start id)
  | worked failed => some (.workDone id failed)
  | closing failed => some (.subtreeDone id failed)
  | telling e => some (.chainEnd (p.parent? id) e.failed)
  | idle | queued | flying | waiting | told _ | passed => none

def status (structural : Bool) : Stage → Status
  | idle | called => .initialized
  | queued => .queued
  | flying | worked _ => .running
  | waiting | closing _ => if structural then .running else .complete
  | telling .broken | told .broken => .failed
  | telling (.settled failed) | told (.settled failed) =>
    if structural && failed then .failed else .complete
  | passed => .complete

/-- The unit of work of a job was dispatched, if the job has one. -/
def isSent : Stage → Bool
  | idle | called | queued => false
  | flying | worked _ | waiting | closing _ | telling _ | told _ | passed => true

/-- How the chain of a job ended, once its owner was told. -/
def ended? : Stage → Option Bool
  | told e => some e.failed
  | idle | called | queued | flying | worked _ | waiting | closing _ | telling _ | passed => none

end Stage

/-- How often an event is waiting. -/
def waits (p : Plan) (st : JobId → Stage) (e : Event) : Nat :=
  total p (fun id x => if x.event? p id = some e then 1 else 0) st

/-- How many of its children a job has to wait for. -/
def awaited (p : Plan) (st : JobId → Stage) (o : JobId) : Nat :=
  total p (fun id x => if p.parent? id = some o ∧ x.phase.isLive = true then 1 else 0) st

/-- The queue, the units in flight and what was dispatched, told from the stages. -/
structure Pooled (p : Plan) (s : State) (st : JobId → Stage) : Prop where
  queue_nodup : s.queue.Nodup
  queue : ∀ id, id ∈ s.queue ↔ st id = .queued
  flights_nodup : (s.inFlight.map Flight.id).Nodup
  flights : ∀ id, id ∈ s.inFlight.map Flight.id ↔ st id = .flying
  dispatched_nodup : s.dispatched.Nodup
  dispatched : ∀ id, id ∈ s.dispatched ↔ p.isStructural id = false ∧ (st id).isSent = true

/-- The state of a run in which the jobs have come to the stages `st`. -/
structure Matches (p : Plan) (s : State) (st : JobId → Stage) : Prop where
  pooled : Pooled p s st
  statuses : ∀ id, s.statuses.get? id =
    if id ∈ p.ids then some ((st id).status (p.isStructural id)) else none
  events : ∀ e, s.events.count e = waits p st e
  counters : ∀ o ∈ p.ids, s.counters.get? o = some (awaited p st o)
  failedOwners : ∀ o, o ∈ s.failedOwners ↔
    ∃ c, p.parent? c = some o ∧ (st c).phase.isLost = true
  finished : s.finished = (st p.root).ended?

variable {p : Plan} {s s' : State} {st st' : JobId → Stage} {id : JobId} {x : Stage}

/-! ### What does not change -/

/-- What is the same of two stages of a job is the same of all jobs when this one advances. -/
theorem apply_update {β : Sort*} (f : Stage → β) (hx : f x = f (st id)) (k : JobId) :
    f (Function.update st id x k) = f (st k) := by
  by_cases hk : k = id
  · rw [hk, Function.update_self, hx]
  · rw [Function.update_of_ne hk]

theorem Pooled.same (h : Pooled p s st) (hq : s'.queue = s.queue) (hf : s'.inFlight = s.inFlight)
    (hd : s'.dispatched = s.dispatched)
    (hqueued : ∀ k, (st' k = .queued) = (st k = .queued))
    (hflying : ∀ k, (st' k = .flying) = (st k = .flying))
    (hsent : ∀ k, p.isStructural k = false → (st' k).isSent = (st k).isSent) :
    Pooled p s' st' where
  queue_nodup := hq ▸ h.queue_nodup
  queue := by
    intro k
    rw [hq, hqueued, h.queue]
  flights_nodup := hf ▸ h.flights_nodup
  flights := by
    intro k
    rw [hf, hflying, h.flights]
  dispatched_nodup := hd ▸ h.dispatched_nodup
  dispatched := by
    intro k
    rw [hd, h.dispatched]
    exact and_congr_right fun hs => by rw [hsent k hs]

/-- A job that is and stays out of the queue and the flights leaves them as they are. -/
theorem Pooled.update (h : Pooled p s st) (hq : s'.queue = s.queue)
    (hf : s'.inFlight = s.inFlight) (hd : s'.dispatched = s.dispatched)
    (hqueued : (x = .queued) = (st id = .queued)) (hflying : (x = .flying) = (st id = .flying))
    (hsent : p.isStructural id = false → x.isSent = (st id).isSent) :
    Pooled p s' (Function.update st id x) := by
  refine h.same hq hf hd ?_ ?_ fun k hk => ?_
  · exact apply_update (· = .queued) hqueued
  · exact apply_update (· = .flying) hflying
  · by_cases hkid : k = id
    · subst hkid
      rw [Function.update_self, hsent hk]
    · rw [Function.update_of_ne hkid]

theorem Pooled.callAll {ids : List JobId} (h : Pooled p s st) (hids : Fresh p st ids) :
    Pooled p s (callAll ids st) := by
  refine h.same rfl rfl rfl ?_ ?_ fun k _ => ?_
  · exact hids.apply_callAll (· = .queued) (by simp)
  · exact hids.apply_callAll (· = .flying) (by simp)
  · exact hids.apply_callAll (·.isSent) rfl k

/-- A job is out of the queue and the flights, and its owner was not told of it. -/
structure Stage.Quiet (x : Stage) : Prop where
  queued : x ≠ .queued
  flying : x ≠ .flying
  lost : x.phase.isLost = false
  ended : x.ended? = none

theorem Stage.quiet_of_event? {e : Event} (h : x.event? p id = some e) : x.Quiet := by
  cases x with
  | called => exact ⟨by simp, by simp, rfl, rfl⟩
  | worked failed => exact ⟨by simp, by simp, rfl, rfl⟩
  | closing failed => exact ⟨by simp, by simp, rfl, rfl⟩
  | telling e => exact ⟨by simp, by simp, by cases e <;> rfl, rfl⟩
  | _ => simp [event?] at h

namespace Matches

theorem failedOwners_same (h : Matches p s st)
    (hx : ∀ k, (st' k).phase.isLost = (st k).phase.isLost) (o : JobId) : o ∈ s.failedOwners ↔
      ∃ c, p.parent? c = some o ∧ (st' c).phase.isLost = true := by
  rw [h.failedOwners]
  exact exists_congr fun c => and_congr_right fun _ => by rw [hx]

theorem finished_same (h : Matches p s st) (hx : ∀ k, (st' k).ended? = (st k).ended?) :
    s.finished = (st' p.root).ended? := by
  rw [h.finished, hx]

/-- Statuses may change for the job that advances, and for no other. -/
theorem statuses_of {statuses : SortedMap JobId Status} (h : Matches p s st) (hid : id ∈ p.ids)
    (hself : statuses.get? id = some (x.status (p.isStructural id)))
    (hrest : ∀ k, k ≠ id → statuses.get? k = s.statuses.get? k)
    (hst : ∀ k, (st' k).status (p.isStructural k) = (st k).status (p.isStructural k))
    (k : JobId) :
    statuses.get? k = if k ∈ p.ids then
      some ((Function.update st' id x k).status (p.isStructural k)) else none := by
  by_cases hk : k = id
  · subst hk
    rw [hself, if_pos hid, Function.update_self]
  · rw [hrest k hk, h.statuses k, Function.update_of_ne hk, hst]

theorem statuses_mark {status : Status} (h : Matches p s st) (hid : id ∈ p.ids)
    (hx : x.status (p.isStructural id) = status) (k : JobId) :
    (s.statuses.insert id status).get? k =
      if k ∈ p.ids then some ((Function.update st id x k).status (p.isStructural k)) else none := by
  refine h.statuses_of hid ?_ (fun k hk => ?_) (fun _ => rfl) k
  · rw [SortedMap.get?_insert, if_pos rfl, hx]
  · rw [SortedMap.get?_insert, if_neg hk]

theorem statuses_same (h : Matches p s st) (hid : id ∈ p.ids)
    (hx : x.status (p.isStructural id) = (st id).status (p.isStructural id)) (k : JobId) :
    s.statuses.get? k =
      if k ∈ p.ids then some ((Function.update st id x k).status (p.isStructural k)) else none := by
  refine h.statuses_of hid ?_ (fun _ _ => rfl) (fun _ => rfl) k
  rw [h.statuses, if_pos hid, hx]

end Matches

/-! ### Events and counters -/

theorem count_event?_toList (y : Stage) (e : Event) :
    (y.event? p id).toList.count e = if y.event? p id = some e then 1 else 0 := by
  cases y.event? p id with
  | none => simp
  | some e' => simp [List.count_singleton]

/-- A job that advances takes its event away and leaves another. -/
theorem waits_update {events : List Event} (hid : id ∈ p.ids)
    (h : ∀ e, (((st id).event? p id).toList ++ events).count e = waits p st e) (e : Event) :
    (events ++ (x.event? p id).toList).count e = waits p (Function.update st id x) e := by
  have hsum := total_update (fun id x => if x.event? p id = some e then 1 else 0) st x hid
  have hbefore := h e
  rw [List.count_append, count_event?_toList] at hbefore
  rw [List.count_append, count_event?_toList]
  simp only [waits] at hbefore hsum ⊢
  omega

theorem sum_map_ite (P : JobId → Prop) [DecidablePred P] (ids : List JobId) :
    (ids.map fun k => if P k then 1 else 0).sum = ids.countP fun k => P k := by
  induction ids with
  | nil => rfl
  | cons a ids ih =>
    rw [List.map_cons, List.sum_cons, List.countP_cons, ih, Nat.add_comm]
    simp

theorem count_map_start (ids : List JobId) (e : Event) :
    (ids.map Event.start).count e =
      (ids.map fun k => if Stage.called.event? p k = some e then 1 else 0).sum := by
  induction ids with
  | nil => rfl
  | cons a ids ih =>
    rw [List.map_cons, List.map_cons, List.sum_cons, List.count_cons, ih, Nat.add_comm]
    simp [Stage.event?]

theorem waits_callAll {ids : List JobId} (h : Fresh p st ids) (e : Event) :
    waits p (callAll ids st) e = waits p st e + (ids.map Event.start).count e := by
  have hsum := total_callAll (fun id x => if x.event? p id = some e then 1 else 0) h
  have hzero : (ids.map fun k => if Stage.idle.event? p k = some e then 1 else 0).sum = 0 := by
    simp [Stage.event?]
  rw [hzero, ← count_map_start] at hsum
  exact hsum

theorem awaited_update (st : JobId → Stage) (x : Stage) (hid : id ∈ p.ids) (o : JobId) :
    awaited p (Function.update st id x) o +
        (if p.parent? id = some o ∧ (st id).phase.isLive = true then 1 else 0) =
      awaited p st o + if p.parent? id = some o ∧ x.phase.isLive = true then 1 else 0 :=
  total_update _ st x hid

theorem awaited_update_same (hid : id ∈ p.ids) (h : x.phase.isLive = (st id).phase.isLive)
    (o : JobId) : awaited p (Function.update st id x) o = awaited p st o :=
  total_update_of_eq hid (by rw [h])

theorem awaited_callAll {ids : List JobId} (h : Fresh p st ids) (o : JobId) :
    awaited p (callAll ids st) o =
      awaited p st o + ids.countP fun k => p.parent? k = some o := by
  have hsum := total_callAll
    (fun id x => if p.parent? id = some o ∧ x.phase.isLive = true then 1 else 0) h
  have hzero : (ids.map fun k =>
      if p.parent? k = some o ∧ Stage.idle.phase.isLive = true then 1 else 0).sum = 0 := by
    simp [Stage.phase, Phase.isLive]
  have hcount : (ids.map fun k =>
      if p.parent? k = some o ∧ Stage.called.phase.isLive = true then 1 else 0).sum =
        ids.countP fun k => p.parent? k = some o := by
    simp only [Stage.phase, Phase.isLive, and_true]
    exact sum_map_ite _ ids
  rw [hzero, hcount] at hsum
  exact hsum

theorem Matches.counters_same (h : Matches p s st) (hid : id ∈ p.ids)
    (hx : x.phase.isLive = (st id).phase.isLive) :
    ∀ o ∈ p.ids, s.counters.get? o = some (awaited p (Function.update st id x) o) := by
  intro o ho
  rw [awaited_update_same hid hx, h.counters o ho]

namespace Matches

theorem events_pop {e : Event} {events : List Event} (h : Matches p s st)
    (he : s.events = e :: events) (hst : (st id).event? p id = some e) (k : Event) :
    (((st id).event? p id).toList ++ events).count k = waits p st k := by
  rw [hst, ← h.events k, he]
  rfl

theorem events_push (h : Matches p s st) (hst : (st id).event? p id = none) (k : Event) :
    (((st id).event? p id).toList ++ s.events).count k = waits p st k := by
  rw [hst, ← h.events k]
  rfl

theorem owner_of_event {e : Event} {events : List Event} (h : Matches p s st)
    (he : s.events = e :: events) : ∃ id ∈ p.ids, (st id).event? p id = some e := by
  have hpos : 0 < waits p st e := by
    rw [← h.events e, he, List.count_cons_self]
    exact Nat.succ_pos _
  obtain ⟨id, hid, hg⟩ := exists_of_total_pos hpos
  refine ⟨id, hid, ?_⟩
  by_contra hne
  simp [hne] at hg

end Matches

end Run

end Workflow
