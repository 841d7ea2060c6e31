import Workflow.Proofs.Plan.Rank
import Workflow.Proofs.Run.Counters
import Workflow.Proofs.Run.History

/-!
Every run of a plan ends, also where jobs are linked several times or not at all. What a start can
bring about is priced by the rank of its job; an event, an id in the queue and a unit in flight are
each worth what they can still bring about, and so is a counter that is not at zero, because it may
yet close its job once. Every move of the machine lowers the worth of the state.
-/

namespace Workflow

namespace Plan

variable {p : Plan} {id : JobId}

/-- How many branches all jobs have together. -/
def branchCount (p : Plan) : Nat :=
  p.table.keys.foldr (fun id n => (p.branches id).length + n) 0

theorem branches_length_le (p : Plan) (id : JobId) : (p.branches id).length ≤ p.branchCount := by
  have hkeys : ∀ {ids : List JobId}, id ∈ ids →
      (p.branches id).length ≤ ids.foldr (fun id n => (p.branches id).length + n) 0 := by
    intro ids hid
    induction ids with
    | nil => cases hid
    | cons k ids ih =>
      rw [List.foldr_cons]
      rcases List.mem_cons.mp hid with rfl | hid
      · exact Nat.le_add_right _ _
      · exact (ih hid).trans (Nat.le_add_left _ _)
  by_cases hid : id ∈ p.table.keys
  · exact hkeys hid
  · have hnone : p.get? id = none := by
      rw [← Option.not_isSome_iff_eq_none, get?_isSome]
      exact hid
    simp [branches, hnone]

/-- What a start of a job is worth. -/
noncomputable def worth (p : Plan) (id : JobId) : Nat := (p.branchCount + 7) ^ (p.rank id + 1)

/-- What follows when all under a job is done. -/
noncomputable def closing (p : Plan) (id : JobId) : Nat :=
  2 + ((p.next? id).map p.worth).getD 0

/-- What follows when the work of a job is done. -/
noncomputable def working (p : Plan) (id : JobId) : Nat :=
  1 + ((p.branches id).map p.worth).sum + p.closing id

/-- A start is worth its way through the queue and the flight and all that comes after them. -/
theorem working_le (ht : p.table.Owned) (id : JobId) : p.working id + 3 ≤ p.worth id := by
  set base := p.branchCount + 7 with hbase
  set unit := base ^ p.rank id with hunit
  have hlink : ∀ k, p.Links id k → p.worth k ≤ unit := fun k hk =>
    Nat.pow_le_pow_right (by omega) (rank_lt ht hk)
  have hpos : 1 ≤ unit := Nat.one_le_pow _ _ (by omega)
  have hbranches : ((p.branches id).map p.worth).sum ≤ p.branchCount * unit := by
    have hsum : ((p.branches id).map p.worth).sum ≤ (p.branches id).length * unit := by
      have hcard := List.sum_le_card_nsmul ((p.branches id).map p.worth) unit
      rw [List.length_map] at hcard
      refine hcard fun n hn => ?_
      obtain ⟨k, hk, rfl⟩ := List.mem_map.mp hn
      exact hlink k (mem_links_iff.mpr (.inl hk))
    exact hsum.trans (Nat.mul_le_mul_right _ (p.branches_length_le id))
  have hnext : ((p.next? id).map p.worth).getD 0 ≤ unit := by
    cases hn : p.next? id with
    | none => exact Nat.zero_le _
    | some n => exact hlink n (mem_links_iff.mpr (.inr hn))
  have hworth : p.worth id = p.branchCount * unit + 7 * unit := by
    rw [worth, pow_succ, ← hbase, ← hunit, mul_comm, hbase, add_mul]
  rw [hworth, working, closing]
  omega

end Plan

namespace Run

open Plan (worth closing working)

variable {p : Plan} {limit n : Nat} {past : List Event} {s t : State} {id : JobId}

/-! ### What counters are worth -/

/-- What counters are worth: those that are not at zero may close their jobs. -/
noncomputable def credit (p : Plan) (c : Counters) : Nat :=
  ((List.range' 1 c.counts.length).map fun id =>
    if c.outstanding id = 0 then 0 else p.closing id).sum

theorem mem_range'_of_get? {c : Counters} {m : Nat} (h : c.get? id = some m) :
    id ∈ List.range' 1 c.counts.length := by
  cases id with
  | zero => cases h
  | succ k =>
    obtain ⟨hk, -⟩ := List.getElem?_eq_some_iff.mp h
    exact List.mem_range'_1.mpr ⟨Nat.succ_pos k, by omega⟩

theorem credit_ofSize (p : Plan) (size : Nat) : credit p (Counters.ofSize size) = 0 := by
  refine List.sum_eq_zero fun n hn => ?_
  obtain ⟨id, -, rfl⟩ := List.mem_map.mp hn
  rw [if_pos (Counters.outstanding_ofSize size id)]

/-- A counter that is set changes its own worth and no other. -/
theorem credit_set {c : Counters} (h : (c.get? id).isSome = true) (m : Nat) :
    credit p (c.set id m) + (if c.outstanding id = 0 then 0 else p.closing id) =
      credit p c + if m = 0 then 0 else p.closing id := by
  have hlength : (c.set id m).counts.length = c.counts.length := by
    cases id with
    | zero => rfl
    | succ k => exact List.length_set
  have hupdate : (c.set id m).outstanding = Function.update c.outstanding id m := by
    funext k
    by_cases hk : k = id
    · rw [hk, Function.update_self, Counters.outstanding_set_self h]
    · rw [Function.update_of_ne hk, Counters.outstanding_set_of_ne hk]
  obtain ⟨k, hk⟩ := Option.isSome_iff_exists.mp h
  rw [credit, credit, hlength, hupdate]
  exact sum_map_update (g := fun id n => if n = 0 then 0 else p.closing id)
    List.nodup_range' (mem_range'_of_get? hk)

theorem credit_arm (p : Plan) (c : Counters) (id : JobId) (m : Nat) :
    credit p (c.arm id m) ≤ credit p c + p.closing id := by
  by_cases h : (c.get? id).isSome = true
  · have hset := credit_set (p := p) h m
    have hle : (if m = 0 then 0 else p.closing id) ≤ p.closing id := by
      split
      · exact Nat.zero_le _
      · exact le_refl _
    rw [Counters.arm]
    omega
  · have hsame : (c.arm id m).counts = c.counts := by
      cases id with
      | zero => rfl
      | succ k =>
        have hout : c.counts.length ≤ k := by simpa [Counters.get?] using h
        exact List.set_eq_of_length_le hout
    have heq : c.arm id m = c := by
      cases c
      exact congrArg Counters.mk hsame
    rw [heq]
    exact Nat.le_add_right _ _

/-- A branch that ends closes its owner at most for what the owner's counter was worth. -/
theorem credit_complete (p : Plan) (c : Counters) (o : JobId) :
    credit p (c.complete o).2 + (if (c.complete o).1 = true then p.closing o else 0) ≤
      credit p c := by
  rcases Nat.eq_zero_or_pos (c.outstanding o) with hzero | hpos
  · rw [Counters.complete_of_zero hzero]
    simp
  · obtain ⟨m, hget, hcomplete⟩ := Counters.complete_of_pos hpos
    have hsome : (c.get? o).isSome = true := by rw [hget, Option.isSome_some]
    have hset := credit_set (p := p) hsome m
    rw [if_neg (Nat.ne_of_gt hpos)] at hset
    rw [hcomplete]
    cases m with
    | zero =>
      simp only [if_true, beq_self_eq_true] at hset ⊢
      omega
    | succ m =>
      have hne : (m + 1 == 0) = false := rfl
      simp only [hne, Bool.false_eq_true, if_false, Nat.succ_ne_zero] at hset ⊢
      omega

/-! ### What a state is worth -/

noncomputable def Event.worth (p : Plan) : Event → Nat
  | .start id => p.worth id
  | .workDone id _ => p.working id
  | .subtreeDone id _ => p.closing id
  | .chainEnd _ _ => 1

noncomputable def State.worth (p : Plan) (s : State) : Nat :=
  (s.events.map (Event.worth p)).sum + (s.queue.map fun id => p.working id + 2).sum +
    (s.inFlight.map fun f => p.working f.id + 1).sum + credit p s.counters

/-- What the handling of an event brings about is worth less than the event. -/
theorem effects_lt (ht : p.table.Owned) (s : State) (e : Event) :
    ((e.replies p ++ s.closes e).map (Event.worth p)).sum +
        ((e.queues p).map fun id => p.working id + 2).sum +
        credit p ((s.asks p e).foldl CounterCall.apply s.counters) <
      e.worth p + credit p s.counters := by
  cases e with
  | start id =>
    have hstart := Plan.working_le ht id
    cases hs : p.isStructural id <;> simp [hs, Event.worth] <;> omega
  | workDone id failed =>
    cases failed with
    | true =>
      simp only [Event.replies, State.closes, Event.queues, State.asks, Event.worth,
        Plan.working, Plan.closing, List.append_nil, List.map_cons, List.map_nil, List.sum_cons,
        List.sum_nil, List.foldl_nil]
      omega
    | false =>
      by_cases hb : p.branches id = []
      · simp [hb, Event.worth, Plan.working]
      -- The branches and the credit for them are paid for out of what the job was worth.
      · have harm := credit_arm p s.counters id (p.branches id).length
        have hmap : (p.branches id).map (Event.worth p ∘ Event.start) =
            (p.branches id).map p.worth := rfl
        simp only [Event.replies, State.closes, Event.queues, State.asks, hb, if_false,
          List.append_nil, List.map_map, hmap, List.map_nil, List.sum_nil, List.foldl_cons,
          List.foldl_nil, CounterCall.apply, Event.worth, Plan.working]
        omega
  | subtreeDone id failed =>
    cases failed with
    | true =>
      have hclosing : 1 < p.closing id := Nat.lt_add_right _ Nat.one_lt_two
      simpa [Event.worth] using hclosing
    | false => cases hn : p.next? id <;> simp [hn, Event.worth, Plan.closing]
  | chainEnd owner failed =>
    cases owner with
    | none => simp [Event.worth]
    | some o =>
      have hcomplete := credit_complete p s.counters o
      cases hlast : (s.counters.complete o).1 <;>
        simp [hlast, Event.worth] at hcomplete ⊢ <;> omega

theorem worth_handle_lt (ht : p.table.Owned) {e : Event} {events : List Event}
    (he : s.events = e :: events) :
    ({ s with events := events }.handle p e).worth p < s.worth p := by
  have heffects := effects_lt ht { s with events := events } e
  rw [handle_eq, State.worth, State.worth, he]
  simp only [List.map_append, List.sum_append, List.map_cons, List.sum_cons] at heffects ⊢
  omega

theorem worth_dispatch_lt {queue : List JobId} (hq : s.queue = id :: queue) :
    ({ s with queue := queue }.dispatch id).worth p < s.worth p := by
  simp [State.worth, State.dispatch, State.mark, hq]
  omega

theorem worth_drop_lt {queue : List JobId} (hq : s.queue = id :: queue) :
    ({ s with queue := queue } : State).worth p < s.worth p := by
  simp [State.worth, hq]

theorem worth_finish_lt {f : Flight} (hf : f ∈ s.inFlight) (failed : Bool) :
    (s.finish f failed).worth p < s.worth p := by
  have hflights : (s.inFlight.map fun f => p.working f.id + 1).sum =
      p.working f.id + 1 + ((s.inFlight.erase f).map fun f => p.working f.id + 1).sum := by
    rw [← List.sum_cons, ← List.map_cons (f := fun f : Flight => p.working f.id + 1)]
    exact ((List.perm_cons_erase hf).map _).sum_eq
  simp only [State.worth, State.finish, State.post, List.map_append, List.sum_append,
    List.map_cons, List.map_nil, List.sum_cons, List.sum_nil, Event.worth, hflights]
  omega

theorem worth_step_lt (ht : p.table.Owned) (h : s.step? p limit = some t) :
    t.worth p < s.worth p := by
  rcases step?_eq_some h with ⟨e, events, he, rfl⟩ | ⟨-, -, id, queue, hq, rfl⟩
  · exact worth_handle_lt ht he
  · split
    · exact worth_dispatch_lt hq
    · exact worth_drop_lt hq

theorem worth_init_lt (p : Plan) : (Run.init p).worth p < bound p := by
  have hworth : (Run.init p).worth p = p.worth p.root := by
    simp [State.worth, Run.init, Event.worth, credit_ofSize]
  rw [hworth, Plan.worth]
  exact Nat.pow_lt_pow_right (by omega) (by have := p.rank_le p.root; omega)

/-! ### Runs end -/

/-- `n` moves of a run, whose units in flight may end in any order and either way, handle the
events `past` and come to a state. -/
inductive Moves (p : Plan) (limit : Nat) : Nat → List Event → State → Prop where
  | init : Moves p limit 0 [] (Run.init p)
  | own {n : Nat} {past : List Event} {s t : State} (h : Moves p limit n past s)
    (hstep : s.step? p limit = some t) : Moves p limit (n + 1) (past ++ s.events.take 1) t
  | ending {n : Nat} {past : List Event} {s : State} {f : Flight} (h : Moves p limit n past s)
    (hw : s.step? p limit = none) (hf : f ∈ s.inFlight) (failed : Bool) :
    Moves p limit (n + 1) past (s.finish f failed)

theorem Moves.worth_le (ht : p.table.Owned) (h : Moves p limit n past s) :
    n + s.worth p ≤ (Run.init p).worth p := by
  induction h with
  | init => rw [Nat.zero_add]
  | own _ hstep ih =>
    have := worth_step_lt ht hstep
    omega
  | ending _ _ hf failed ih =>
    have := worth_finish_lt (p := p) hf failed
    omega

/-- Handling an event is a move, and so is a dispatch. -/
theorem Moves.length_le (h : Moves p limit n past s) :
    past.length + s.dispatched.length ≤ n := by
  induction h with
  | init => exact le_refl _
  | own _ hstep ih =>
    rcases step?_eq_some hstep with ⟨e, events, he, rfl⟩ | ⟨he, -, id, queue, hq, rfl⟩
    · rw [handle_eq]
      simp only [he, List.take_succ_cons, List.take_zero, List.length_append, List.length_singleton]
      omega
    · split <;> simp [he, State.dispatch, State.mark] <;> omega
  | ending _ _ _ _ ih => exact ih.trans (Nat.le_succ _)

theorem Moves.exists_next (h : Moves p limit n past s) (hs : ¬ s.IsOver p limit) :
    ∃ past' t, Moves p limit (n + 1) past' t := by
  cases hstep : s.step? p limit with
  | some t => exact ⟨_, t, h.own hstep⟩
  | none =>
    cases hf : s.inFlight with
    | nil => exact absurd ⟨hstep, hf⟩ hs
    | cons f rest => exact ⟨_, _, h.ending hstep (hf ▸ List.mem_cons_self) false⟩

theorem moves_of_runScript {sc : Script} (h : runScript p limit sc = some s) :
    ∃ n past, Moves p limit n past s := by
  refine (Timed.runUpTo_preserves (motive := fun s => ∃ n past, Moves p limit n past s) ?_ ?_
    ⟨0, [], .init⟩ h).1
  · intro s s' hx hstep
    obtain ⟨n, past, hmoves⟩ := hx
    exact ⟨_, _, hmoves.own hstep⟩
  · intro s hx hw f hf
    obtain ⟨n, past, hmoves⟩ := hx
    exact ⟨_, _, hmoves.ending hw hf _⟩

/-- A script ends within as many moments as the state is worth. -/
theorem runUpTo_ends (ht : p.table.Owned) {sc : Script} {moments : Nat} {timed : Timed}
    (h : timed.state.worth p < moments) : ∃ s, Timed.runUpTo p limit sc moments timed = some s := by
  induction moments generalizing timed with
  | zero => exact absurd h (Nat.not_lt_zero _)
  | succ moments ih =>
    rw [Timed.runUpTo]
    cases htick : timed.tick? p limit sc with
    | none => exact ⟨_, rfl⟩
    | some timed' =>
      have hlt : timed'.state.worth p < timed.state.worth p := by
        rcases Timed.tick?_eq_some htick with hstep | ⟨-, f, hf, hs⟩
        · exact worth_step_lt ht hstep
        · rw [hs]
          exact worth_finish_lt hf _
      exact ih (by omega)

/-- A run of a plan whose jobs stand under their own ids makes no more moves than the bound of the
plan, so neither handles nor dispatches more, and goes on until it is over. -/
theorem run_ends (ht : p.table.Owned) (limit : Nat) :
    (∀ n past s, Moves p limit n past s → n ≤ bound p ∧
      past.length + s.dispatched.length ≤ bound p ∧
      (s.IsOver p limit ∨ ∃ past' t, Moves p limit (n + 1) past' t)) ∧
    ∀ sc, ∃ s, runScript p limit sc = some s ∧ s.IsOver p limit := by
  have hinit := worth_init_lt p
  refine ⟨fun n past s h => ?_, fun sc => ?_⟩
  · have hworth := h.worth_le ht
    have hlength := h.length_le
    exact ⟨by omega, by omega, or_iff_not_imp_left.mpr h.exists_next⟩
  · obtain ⟨s, hs⟩ : ∃ s, runScript p limit sc = some s := by
      rw [runScript]
      exact runUpTo_ends ht hinit
    exact ⟨s, hs, (history_of_runScript hs).2⟩

/-- A branch that is listed twice and also follows another, and a job that nothing links to. -/
def tangledPlan : Plan where
  table := Table.ofJobs [⟨1, "Notify", [], [], none, some [3, 2, 2], none⟩,
    ⟨2, "batch", [], [], some 1, some [5, 5], none⟩, ⟨3, "Notify", [], [], some 1, none, some 2⟩,
    ⟨4, "Notify", [], [], some 1, none, none⟩, ⟨5, "Notify", [], [], some 2, none, none⟩]
  root := 1
  accepted := by decide

theorem tangledPlan_ends : tangledPlan.table.Owned ∧ ∃ n past s, Moves tangledPlan 2 n past s ∧
    s.dispatched = [1, 3, 5, 5, 5, 5, 5, 5] ∧ n ≤ bound tangledPlan ∧
    past.length + s.dispatched.length ≤ bound tangledPlan := by
  have howned : tangledPlan.table.Owned := Table.owned_ofJobs _
  obtain ⟨hmoves, hscripts⟩ := run_ends howned 2
  have hrun : (runScript tangledPlan 2 ⟨[], []⟩).map (·.dispatched) =
      some [1, 3, 5, 5, 5, 5, 5, 5] := by
    decide +kernel
  obtain ⟨s, hs, hdispatched⟩ := Option.map_eq_some_iff.mp hrun
  obtain ⟨n, past, h⟩ := moves_of_runScript hs
  obtain ⟨hn, hlength, -⟩ := hmoves n past s h
  exact ⟨howned, n, past, s, h, hdispatched, hn, hlength⟩

end Run

end Workflow
