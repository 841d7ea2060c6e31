import Workflow.Proofs.Run.Calls
import Workflow.Proofs.Run.Order

/-!
What is outstanding for a job: the branches whose chain is under way somewhere, and the chains
that have ended though their owner was not yet told.
-/

namespace Workflow

/-- The jobs on the chain from a job on. -/
def Plan.chain (p : Plan) (id : JobId) : List JobId := chainFrom p.table p.size id

namespace Run

variable {p : Plan} {limit : Nat} {fails : JobId → Bool} {st : JobId → Stage} {s : State}
  {id a b b' c c' o : JobId}

/-! ### Chains of branches -/

theorem Leads.le (hp : p.Branching) (h : Leads p a b) : a ≤ b := by
  induction h with
  | refl => exact Nat.le_refl _
  | tail _ hn ih => exact ih.trans (Nat.le_of_lt (hp.next _ _ hn).2.1)

theorem mem_chainFrom_of_leads (hp : p.Branching) (h : Leads p b c) {steps : Nat}
    (hlen : c ≤ b + steps) : c ∈ chainFrom p.table steps b := by
  induction steps generalizing b with
  | zero =>
    obtain rfl : b = c := Nat.le_antisymm (Leads.le hp h) hlen
    exact List.mem_cons_self
  | succ steps ih =>
    rw [chainFrom]
    rcases Relation.ReflTransGen.cases_head h with rfl | ⟨n, hn, hrest⟩
    · split <;> exact List.mem_cons_self
    · have hlt := (hp.next b n hn).2.1
      rw [show (p.table.get? b).bind Job.next = some n from hn]
      exact List.mem_cons_of_mem _ (ih hrest (by lia))

theorem mem_chain_iff (hp : p.Branching) (hc : c ∈ p.ids) : c ∈ p.chain b ↔ Leads p b c := by
  refine ⟨Table.leads_of_mem_chainFrom, fun h => mem_chainFrom_of_leads hp h ?_⟩
  have := (Plan.mem_ids_iff.mp hc).2
  lia

/-- A job stands on the chain of one branch of its owner only. -/
theorem branch_unique (hp : p.Branching) (hb : b ∈ p.branches o) (hb' : b' ∈ p.branches o)
    (h : Leads p b c) (h' : Leads p b' c) : b = b' := by
  induction h with
  | refl =>
    rcases Relation.ReflTransGen.cases_tail h' with he | ⟨q, -, hq⟩
    · exact he
    · exact absurd hq (hp.branch_ne_next o b hb q)
  | @tail q c _ hq ih =>
    rcases Relation.ReflTransGen.cases_tail h' with rfl | ⟨q', hlead, hq'⟩
    · exact absurd hq (hp.branch_ne_next o c hb' q)
    · rw [hp.next_inj q q' c hq hq'] at ih
      exact ih hlead

/-- Of two jobs on a chain that have begun, one was passed. -/
theorem passed_of_two (hc : Consistent p fails st) (h : Leads p b c) (h' : Leads p b c')
    (hbegun : st c ≠ .idle) (hbegun' : st c' ≠ .idle) :
    c = c' ∨ st c = .passed ∨ st c' = .passed := by
  have hfun : Relator.RightUnique fun x y => p.next? x = some y := fun _ _ _ hy hz =>
    Option.some.inj (hy.symm.trans hz)
  rcases Relation.ReflTransGen.total_of_right_unique hfun h h' with hlead | hlead
  · rcases Leads.passed hc hlead hbegun' with he | hpassed
    · exact .inl he
    · exact .inr (.inl hpassed)
  · rcases Leads.passed hc hlead hbegun with he | hpassed
    · exact .inl he.symm
    · exact .inr (.inr hpassed)

/-! ### Jobs under way -/

/-- A job has an event to be handled, work to be done, or branches to wait for. -/
def State.UnderWay (s : State) (id : JobId) : Prop :=
  (∃ e ∈ s.events, e.job? = some id) ∨ id ∈ s.queue ∨ id ∈ s.inFlight.map Flight.id ∨
    s.counters.outstanding id ≠ 0

instance (s : State) (id : JobId) : Decidable (s.UnderWay id) :=
  inferInstanceAs (Decidable (_ ∨ _ ∨ _ ∨ _))

def Stage.isUnderWay : Stage → Bool
  | called | queued | flying | worked _ | waiting | closing _ => true
  | idle | telling _ | told _ | passed => false

/-- Whether a job is about to tell its owner that its chain ended. -/
def Stage.isTelling : Stage → Bool
  | telling _ => true
  | idle | called | queued | flying | worked _ | waiting | closing _ | told _ | passed => false

theorem Stage.isLive_eq (x : Stage) : x.phase.isLive = (x.isUnderWay || x.isTelling) := by
  cases x with
  | telling e => cases e <;> rfl
  | _ => rfl

theorem Matches.mem_events (hm : Matches p s st) (hid : id ∈ p.ids) {e : Event}
    (he : (st id).event? p id = some e) : e ∈ s.events := by
  have hle := le_total (fun id x => if x.event? p id = some e then 1 else 0) st hid
  rw [if_pos he] at hle
  rw [← List.count_pos_iff, hm.events e]
  exact hle

theorem Matches.outstanding_eq (hm : Matches p s st) (hid : id ∈ p.ids) :
    s.counters.outstanding id = awaited p st id :=
  Counters.outstanding_of_get? (hm.counters id hid)

theorem Stage.job?_of_event? {x : Stage} {k : JobId} {e : Event} (he : x.event? p k = some e)
    (hj : e.job? = some id) : k = id ∧ x.isUnderWay = true := by
  cases x with
  | telling _ =>
    obtain rfl := Option.some.inj he
    cases hj
  | called | worked _ | closing _ =>
    obtain rfl := Option.some.inj he
    exact ⟨Option.some.inj hj, rfl⟩
  | _ => cases he

/-- Something is outstanding for a job when a job under it is under way or about to tell it. -/
theorem awaited_ne_zero_iff (hc : Consistent p fails st) :
    awaited p st id ≠ 0 ↔ st id = .waiting := by
  constructor
  · intro h
    obtain ⟨c, -, hpos⟩ := exists_of_total_pos (Nat.pos_of_ne_zero h)
    have hlive : p.parent? c = some id ∧ (st c).phase.isLive = true := by
      by_contra hne
      simp [hne] at hpos
    exact Stage.phase_eq_waiting_iff.mp (hc.coherent.live c id hlive.1 hlive.2)
  · intro h
    obtain ⟨c, hpar, hlive⟩ := hc.coherent.waiting id (Stage.phase_eq_waiting_iff.mpr h)
    have hle := le_total
      (fun k x => if p.parent? k = some id ∧ x.phase.isLive = true then 1 else 0) st
      (Plan.mem_ids_of_parent? hpar)
    rw [if_pos ⟨hpar, hlive⟩] at hle
    rw [awaited]
    omega

theorem Matches.underWay_iff (hc : Consistent p fails st) (hm : Matches p s st)
    (hid : id ∈ p.ids) : s.UnderWay id ↔ (st id).isUnderWay = true := by
  rw [State.UnderWay, hm.pooled.queue, hm.pooled.flights, hm.outstanding_eq hid,
    awaited_ne_zero_iff hc]
  constructor
  · intro h
    rcases h with ⟨e, he, hj⟩ | hst | hst | hst
    · obtain ⟨k, -, hk⟩ := hm.exists_of_mem_events he
      obtain ⟨rfl, hway⟩ := Stage.job?_of_event? hk hj
      exact hway
    · rw [hst]
      rfl
    · rw [hst]
      rfl
    · rw [hst]
      rfl
  · intro h
    cases hst : st id with
    | called => exact .inl ⟨.start id, hm.mem_events hid (by rw [hst]; rfl), rfl⟩
    | worked failed => exact .inl ⟨.workDone id failed, hm.mem_events hid (by rw [hst]; rfl), rfl⟩
    | closing failed =>
      exact .inl ⟨.subtreeDone id failed, hm.mem_events hid (by rw [hst]; rfl), rfl⟩
    | queued => exact .inr (.inl rfl)
    | flying => exact .inr (.inr (.inl rfl))
    | waiting => exact .inr (.inr (.inr rfl))
    | _ =>
      rw [hst] at h
      cases h

/-! ### What is outstanding -/

theorem total_add (g h : JobId → Stage → Nat) (st : JobId → Stage) :
    total p (fun id x => g id x + h id x) st = total p g st + total p h st := by
  rw [total, total, total, List.sum_map_add]

theorem total_congr {g h : JobId → Stage → Nat} (hgh : ∀ id, g id (st id) = h id (st id)) :
    total p g st = total p h st := by
  rw [total, total]
  exact congrArg List.sum (List.map_congr_left fun id _ => hgh id)

/-- The chains under a job that have ended though the job was not yet told. -/
def State.untold (s : State) (o : JobId) : Nat :=
  s.events.count (.chainEnd (some o) true) + s.events.count (.chainEnd (some o) false)

theorem Matches.untold_eq (hm : Matches p s st) (o : JobId) : s.untold o =
    total p (fun id x => if p.parent? id = some o ∧ x.isTelling = true then 1 else 0) st := by
  rw [State.untold, hm.events, hm.events, waits, waits, ← total_add]
  refine total_congr fun id => ?_
  cases hst : st id with
  | telling e =>
    by_cases hpar : p.parent? id = some o
    · cases hf : e.failed <;> simp [Stage.event?, Stage.isTelling, hpar, hf]
    · simp [Stage.event?, hpar]
  | _ => simp [Stage.event?, Stage.isTelling]

theorem awaited_eq (p : Plan) (st : JobId → Stage) (o : JobId) : awaited p st o =
    total p (fun id x => if p.parent? id = some o ∧ x.isUnderWay = true then 1 else 0) st +
      total p (fun id x => if p.parent? id = some o ∧ x.isTelling = true then 1 else 0) st := by
  rw [awaited, ← total_add]
  refine total_congr fun id => ?_
  rw [Stage.isLive_eq]
  cases st id <;> simp [Stage.isUnderWay, Stage.isTelling]

/-- Where each of the one kind has one of the other kind to itself, there are no more of it. -/
theorem countP_le_of_rel {l m : List JobId} {P Q : JobId → Bool} (R : JobId → JobId → Prop)
    (hl : l.Nodup) (hsome : ∀ a ∈ l, P a = true → ∃ b ∈ m, Q b = true ∧ R a b)
    (hinj : ∀ a a' b, P a = true → P a' = true → R a b → R a' b → a = a') :
    l.countP P ≤ m.countP Q := by
  choose! f hf using hsome
  have hmem : ∀ a ∈ l.filter P, a ∈ l ∧ P a = true := fun a => List.mem_filter.mp
  have hnodup : ((l.filter P).map f).Nodup := by
    refine (hl.filter P).map_on fun a ha a' ha' he => ?_
    obtain ⟨hal, hPa⟩ := hmem a ha
    obtain ⟨hal', hPa'⟩ := hmem a' ha'
    have hR := (hf a' hal' hPa').2.2
    rw [← he] at hR
    exact hinj a a' (f a) hPa hPa' (hf a hal hPa).2.2 hR
  have hsubset : (l.filter P).map f ⊆ m.filter Q := by
    intro b hb
    obtain ⟨a, ha, rfl⟩ := List.mem_map.mp hb
    obtain ⟨hal, hPa⟩ := hmem a ha
    exact List.mem_filter.mpr ⟨(hf a hal hPa).1, (hf a hal hPa).2.1⟩
  have hlength := hnodup.length_le_of_subset hsubset
  rwa [List.length_map, ← List.countP_eq_length_filter, ← List.countP_eq_length_filter] at hlength

/-- The branches of a job on whose chain some job is under way. -/
def State.branchesUnderWay (s : State) (p : Plan) (o : JobId) : Nat :=
  (p.branches o).countP fun b => ∃ c ∈ p.chain b, s.UnderWay c

/-- As many branches of a job are under way as jobs under it, for a chain has one such job. -/
theorem Matches.branchesUnderWay_eq (hp : p.Branching) (hc : Consistent p fails st)
    (hm : Matches p s st) (o : JobId) : s.branchesUnderWay p o =
      total p (fun id x => if p.parent? id = some o ∧ x.isUnderWay = true then 1 else 0) st := by
  have hway : ∀ c, p.parent? c = some o → (s.UnderWay c ↔ (st c).isUnderWay = true) := fun c hpar =>
    hm.underWay_iff hc (Plan.mem_ids_of_parent? hpar)
  have hbegun : ∀ c, (st c).isUnderWay = true → st c ≠ .idle ∧ st c ≠ .passed := by
    intro c h
    cases hst : st c <;> simp_all [Stage.isUnderWay]
  have hunder : ∀ b ∈ p.branches o, ∀ c ∈ p.chain b, Leads p b c ∧ p.parent? c = some o := by
    intro b hb c hcb
    have hlead : Leads p b c := Table.leads_of_mem_chainFrom hcb
    exact ⟨hlead, (hlead.parent hp).trans (hp.branch o b hb)⟩
  rw [total, sum_map_ite, State.branchesUnderWay]
  refine Nat.le_antisymm ?_ ?_
  · refine countP_le_of_rel (fun b c => b ∈ p.branches o ∧ Leads p b c) (hp.nodup o) ?_ ?_
    · intro b hb h
      obtain ⟨c, hcb, hc'⟩ := of_decide_eq_true h
      obtain ⟨hlead, hpar⟩ := hunder b hb c hcb
      exact ⟨c, Plan.mem_ids_of_parent? hpar, decide_eq_true ⟨hpar, (hway c hpar).mp hc'⟩, hb, hlead⟩
    · intro b b' c _ _ h h'
      exact branch_unique hp h.1 h'.1 h.2 h'.2
  · refine countP_le_of_rel (fun c b => b ∈ p.branches o ∧ Leads p b c) (ids_nodup p) ?_ ?_
    · intro c hid h
      obtain ⟨hpar, hc'⟩ := of_decide_eq_true h
      obtain ⟨b, hb, hlead⟩ := exists_branch_leads hp hpar
      exact ⟨b, hb, decide_eq_true ⟨c, (mem_chain_iff hp hid).mpr hlead, (hway c hpar).mpr hc'⟩,
        hb, hlead⟩
    · intro c c' b h h' hlead hlead'
      obtain ⟨-, hst⟩ := of_decide_eq_true h
      obtain ⟨-, hst'⟩ := of_decide_eq_true h'
      obtain ⟨hidle, hpassed⟩ := hbegun c hst
      obtain ⟨hidle', hpassed'⟩ := hbegun c' hst'
      rcases passed_of_two hc hlead.2 hlead'.2 hidle hidle' with he | he | he
      · exact he
      · exact absurd he hpassed
      · exact absurd he hpassed'

/-- What is outstanding for a job are the branches under way and the ends that it was not told. -/
theorem Matches.outstanding_eq_pending (hp : p.Branching) (hc : Consistent p fails st)
    (hm : Matches p s st) (hid : o ∈ p.ids) :
    s.counters.outstanding o = s.branchesUnderWay p o + s.untold o := by
  rw [hm.outstanding_eq hid, awaited_eq, hm.branchesUnderWay_eq hp hc, hm.untold_eq]

/-- When a run is over, nothing is outstanding and the chain of the root has ended. -/
theorem Matches.settled_of_over (hp : p.Branching) (hc : Consistent p fails st)
    (hm : Matches p s st) (hover : s.IsOver p limit) :
    (∀ id ∈ p.ids, s.counters.outstanding id = 0) ∧ s.finished.isSome = true := by
  have hfinal := final_of_over hp hc hm hover
  constructor
  · intro id hid
    rw [hm.outstanding_eq hid]
    by_contra hne
    have hst := (awaited_ne_zero_iff hc).mp hne
    rcases hfinal id with he | he | ⟨e, he⟩ <;> rw [hst] at he <;> cases he
  · rw [hm.finished]
    rcases hfinal p.root with he | he | ⟨e, he⟩
    · exact absurd (by rw [he]; rfl) hc.coherent.root
    · have hfit := hc.fits p.root
      rw [he] at hfit
      exact absurd (root_next hp) hfit.2
    · rw [he]
      rfl

/-! ### The account of a run -/

def State.Armed (s : State) (id : JobId) : Prop := ∃ n, .arm id n ∈ s.calls

/-- Counters that are in balance with what a run has done and has still to do. -/
structure Accounted (p : Plan) (limit : Nat) (s : State) : Prop where
  replayed : s.counters = replay p s.calls
  armed_once : ∀ id n, .arm id n ∈ s.calls →
    n = (p.branches id).length ∧ s.calls.count (.arm id n) = 1
  counted : ∀ id, s.Armed id →
    s.counters.outstanding id + s.counted id = (p.branches id).length
  outstanding : ∀ id, s.Armed id →
    s.counters.outstanding id = s.branchesUnderWay p id + s.untold id
  /-- No completion meets a counter that is unknown or at zero. -/
  met : ∀ before id last after, s.calls = before ++ .complete id last :: after →
    ∃ n, (replay p before).get? id = some (n + 1)
  last_once : ∀ id, s.Armed id →
    s.calls.count (.complete id true) = if s.counters.outstanding id = 0 then 1 else 0
  ended : s.IsOver p limit → s.finished.isSome = true ∧ ∀ id, s.counters.outstanding id = 0 ∧
    (s.Armed id → s.calls.count (.complete id true) = 1)

namespace Logged

theorem arms_eq_one (h : Logged p s) (hone : ∀ id, s.arms p id ≤ 1) {id : JobId} {n : Nat}
    (harm : .arm id n ∈ s.calls) : n = (p.branches id).length ∧ s.arms p id = 1 := by
  obtain ⟨-, -, rfl⟩ := h.armed id n harm
  have hpos := List.count_pos_iff.mpr harm
  have hle := hone id
  refine ⟨rfl, ?_⟩
  rw [State.arms] at hle ⊢
  omega

theorem last_of_armed (h : Logged p s) {id : JobId} (harms : s.arms p id = 1) :
    s.calls.count (.complete id true) = if s.counters.outstanding id = 0 then 1 else 0 := by
  have hlast := h.last id
  rw [harms] at hlast
  split <;> omega

end Logged

/-- In every run of a compiled plan the counters are in balance, whatever room there is for units
in flight and however and in whatever order these end. -/
theorem counters_accounted {r : Registry} {args : Scope} {n : Node}
    (h : compile r args n = .ok p.table) (hs : Reachable p limit fails s) :
    Accounted p limit s := by
  have hp := Plan.branching_of_compile h
  have hl := Plan.linkedOnce_of_compile h
  obtain ⟨st, hc, hm⟩ := reachable_matches hp hs
  obtain ⟨past, hpast⟩ := exists_history hs
  have hlog := hs.logged hp hl
  have hone : ∀ id, s.arms p id ≤ 1 := fun id =>
    (hpast.arms_le id).trans ((count_le_posted past s _).trans (hpast.worked_le_one hl id))
  have harms : ∀ id, s.Armed id → id ∈ p.ids ∧ s.arms p id = 1 := by
    intro id harmed
    obtain ⟨n, hn⟩ := harmed
    exact ⟨(hlog.armed id n hn).1, (hlog.arms_eq_one hone hn).2⟩
  constructor
  case replayed => exact hlog.replayed
  case armed_once =>
    intro id n hn
    obtain ⟨rfl, harm⟩ := hlog.arms_eq_one hone hn
    exact ⟨rfl, harm⟩
  case counted =>
    intro id harmed
    have hbalance := hlog.balance id
    rw [(harms id harmed).2, Nat.one_mul] at hbalance
    exact hbalance
  case outstanding => exact fun id harmed => hm.outstanding_eq_pending hp hc (harms id harmed).1
  case met =>
    intro before id last after hcalls
    obtain ⟨n, hn, -⟩ := hlog.met before id last after hcalls
    exact ⟨n, hn⟩
  case last_once => exact fun id harmed => hlog.last_of_armed (harms id harmed).2
  case ended =>
    intro hover
    obtain ⟨hzero, hfinished⟩ := hm.settled_of_over hp hc hover
    have hnone : ∀ id, s.counters.outstanding id = 0 := by
      intro id
      by_cases hid : id ∈ p.ids
      · exact hzero id hid
      · have hbalance := hlog.balance id
        have hnever : s.arms p id = 0 := by
          rw [State.arms, List.count_eq_zero]
          exact fun harm => hid (hlog.armed id _ harm).1
        rw [hnever, Nat.zero_mul] at hbalance
        omega
    refine ⟨hfinished, fun id => ⟨hnone id, fun harmed => ?_⟩⟩
    rw [hlog.last_of_armed (harms id harmed).2, if_pos (hnone id)]

/-- The batch is armed with its two branches, and the end of the second is told to be the last. -/
theorem notifyPlan_accounted : ∃ s, Reachable notifyPlan 2 (fun _ => false) s ∧
    s.IsOver notifyPlan 2 ∧ .arm 1 2 ∈ s.calls ∧ s.calls.count (.complete 1 true) = 1 ∧
    s.finished.isSome = true := by
  have hrun : (runScript notifyPlan 2 ⟨[], []⟩).map (fun s => decide (.arm 1 2 ∈ s.calls)) =
      some true := by
    decide +kernel
  obtain ⟨s, hs, harm⟩ := Option.map_eq_some_iff.mp hrun
  have harm : .arm 1 2 ∈ s.calls := of_decide_eq_true harm
  obtain ⟨hreach, hover⟩ : Reachable notifyPlan 2 (fun _ => false) s ∧ s.IsOver notifyPlan 2 :=
    reachable_of_runScript (fun f => by simp [Script.fails, Script.cue]) hs
  obtain ⟨hfinished, hover'⟩ := (counters_accounted notifyJobs_compiled hreach).ended hover
  exact ⟨s, hreach, hover, harm, (hover' 1).2 ⟨2, harm⟩, hfinished⟩

end Run

end Workflow
