import Workflow.Proofs.Plan.Subtree
import Workflow.Proofs.Run.Agreement
import Workflow.Proofs.Run.History

/-!
What is behind a run when it starts a job: every job above it was started and its own work went
well, and everything under the jobs before it on its chain is complete.
-/

namespace Workflow

namespace Run

/-- A run has started a job: it has left its first status. -/
def State.Started (s : State) (id : JobId) : Prop :=
  ∃ x, s.statuses.get? id = some x ∧ x ≠ .initialized

/-- The own unit of work of a job was handed out, has ended, and went well. -/
structure State.Worked (s : State) (fails : JobId → Bool) (id : JobId) : Prop where
  dispatched : id ∈ s.dispatched
  landed : id ∉ s.inFlight.map Flight.id
  well : fails id = false
  complete : s.statuses.get? id = some .complete

/-- The chain of a job went on behind it, or ended there and did not fail. -/
def Stage.IsWell (x : Stage) : Prop := x = .passed ∨ x = .told (.settled false)

theorem Stage.IsWell.status {x : Stage} (h : x.IsWell) (structural : Bool) :
    x.status structural = .complete := by
  rcases h with rfl | rfl
  · rfl
  · cases structural <;> rfl

theorem Stage.IsWell.verdict? {x : Stage} (h : x.IsWell) : x.phase.verdict? = some false := by
  rcases h with rfl | rfl <;> rfl

variable {p : Plan} {fails : JobId → Bool} {st : JobId → Stage} {s : State} {id : JobId}

theorem isOpen_of_verdict? {x : Phase} {f : Bool} (h : x.verdict? = some f) : x.isOpen = true := by
  cases x with
  | ended e => cases e <;> simp_all [Phase.verdict?, Phase.isOpen]
  | _ => simp_all [Phase.verdict?, Phase.isOpen]

/-- When all under a job is done and nothing failed, a job there that has begun went well. -/
theorem isWell_of_begun {c o : JobId} (hc : Consistent p fails st)
    (hv : (st o).phase.verdict? = some false) (hpar : p.parent? c = some o)
    (hbegun : st c ≠ .idle) : (st c).IsWell := by
  have hlive : (st c).phase.isLive = false := by
    by_contra hl
    have hw := hc.coherent.live c o hpar (by simpa using hl)
    simp [hw, Phase.verdict?] at hv
  have hlost : (st c).phase.isLost = false := by
    by_contra hl
    have hf := (hc.coherent.verdict o false hv).mpr ⟨c, hpar, by simpa using hl⟩
    cases hf
  cases hst : st c with
  | idle => exact absurd hst hbegun
  | passed => exact .inl rfl
  | told e =>
    cases e with
    | broken => simp [hst, Stage.phase, Phase.isLost, Ending.failed] at hlost
    | settled failed =>
      have hf : failed = false := by simpa [hst, Stage.phase, Phase.isLost, Ending.failed] using hlost
      exact .inr (by rw [hf])
  | telling e => cases e <;> simp [hst, Stage.phase, Phase.isLive] at hlive
  | _ => simp [hst, Stage.phase, Phase.isLive] at hlive

/-- When all under a job is done and nothing failed, everything there was reached. -/
theorem begun_of_verdict {c o : JobId} (hp : p.Branching) (hc : Consistent p fails st)
    (hv : (st o).phase.verdict? = some false) (hpar : p.parent? c = some o) : st c ≠ .idle := by
  -- A job that follows another is reached because that one went well and has a successor.
  induction c using Nat.strongRecOn with
  | ind c ih =>
    have hphase : (st c).phase ≠ .idle := by
      rcases hp.child c o hpar with hb | ⟨q, hq⟩
      · exact hc.coherent.branch o c hb (isOpen_of_verdict? hv)
      · obtain ⟨-, hlt, hsame⟩ := hp.next q c hq
        have hqpar : p.parent? q = some o := by rw [← hsame, hpar]
        have hpassed : st q = .passed := by
          rcases isWell_of_begun hc hv hqpar (ih q hlt hqpar) with hst | hst
          · exact hst
          · have hfit := hc.fits q
            rw [hst] at hfit
            have hlast := hfit.2 rfl
            rw [hq] at hlast
            cases hlast
        exact (hc.coherent.next q c hq).mpr (by rw [hpassed]; rfl)
    intro he
    exact hphase (by rw [he]; rfl)

theorem isWell_under (hp : p.Branching) (hc : Consistent p fails st) (hid : (st id).IsWell)
    {k : JobId} (hk : Relation.ReflTransGen p.Under k id) : (st k).IsWell := by
  induction hk using Relation.ReflTransGen.head_induction_on with
  | refl => exact hid
  | head hpar _ ih =>
    exact isWell_of_begun hc ih.verdict? hpar (begun_of_verdict hp hc ih.verdict? hpar)

/-- Everything above a job that has begun has its own work behind it. -/
theorem isOpen_above {a : JobId} (hc : Consistent p fails st) (hid : st id ≠ .idle)
    (ha : Relation.TransGen p.Under id a) : (st a).phase.isOpen = true := by
  have hphase : (st id).phase ≠ .idle := fun he => hid (Stage.phase_eq_idle_iff.mp he)
  induction ha with
  | single hpar => exact hc.coherent.parent id _ hpar hphase
  | tail _ hpar ih =>
    refine hc.coherent.parent _ _ hpar fun he => ?_
    rw [he] at ih
    cases ih

theorem Stage.status_eq_initialized_iff {x : Stage} {structural : Bool} :
    x.status structural = .initialized ↔ x = .idle ∨ x = .called := by
  cases x with
  | waiting | closing failed => cases structural <;> simp [status]
  | telling e | told e =>
    cases e with
    | broken => simp [status]
    | settled failed => cases structural <;> cases failed <;> simp [status]
  | _ => simp [status]

theorem Matches.started_iff (hm : Matches p s st) (hid : id ∈ p.ids) :
    s.Started id ↔ st id ≠ .idle ∧ st id ≠ .called := by
  have hget := hm.statuses id
  rw [if_pos hid] at hget
  rw [State.Started, hget]
  constructor
  · intro h
    obtain ⟨x, hx, hne⟩ := h
    obtain rfl := Option.some.inj hx
    rw [Ne, Stage.status_eq_initialized_iff, not_or] at hne
    exact hne
  · intro h
    refine ⟨_, rfl, ?_⟩
    rw [Ne, Stage.status_eq_initialized_iff, not_or]
    exact h

theorem Matches.exists_of_mem_events {e : Event} (hm : Matches p s st) (he : e ∈ s.events) :
    ∃ k ∈ p.ids, (st k).event? p k = some e := by
  have hpos : 0 < waits p st e := by
    rw [← hm.events e]
    exact List.count_pos_iff.mpr he
  obtain ⟨k, hk, hg⟩ := exists_of_total_pos hpos
  refine ⟨k, hk, ?_⟩
  by_contra hne
  simp [hne] at hg

theorem Stage.event?_eq_start_iff {x : Stage} {k : JobId} :
    x.event? p k = some (.start id) ↔ x = .called ∧ k = id := by
  cases x <;> simp [event?]

/-- A job that a run has started, or is about to start, has begun. -/
theorem Matches.begun (hm : Matches p s st)
    (h : s.Started id ∨ .start id ∈ s.events) : st id ≠ .idle := by
  rcases h with h | h
  · have hid : id ∈ p.ids := by
      by_contra hid
      obtain ⟨x, hx, -⟩ := h
      rw [hm.statuses id, if_neg hid] at hx
      cases hx
    exact ((hm.started_iff hid).mp h).1
  · obtain ⟨k, -, hk⟩ := hm.exists_of_mem_events h
    obtain ⟨hst, rfl⟩ := Stage.event?_eq_start_iff.mp hk
    simp [hst]

/-- The own work of a job went well before anything under it begins. -/
theorem Matches.worked (hc : Consistent p fails st) (hm : Matches p s st) (hid : id ∈ p.ids)
    (hopen : (st id).phase.isOpen = true) :
    s.Started id ∧ p.breaks fails id = false ∧
      (p.isStructural id = false → s.Worked fails id) := by
  have hfit := hc.fits id
  have hstarted : s.Started id := by
    rw [hm.started_iff hid]
    constructor <;> intro hst <;> simp [hst, Stage.phase, Phase.isOpen] at hopen
  have hbreaks : p.breaks fails id = false := by
    cases hst : st id with
    | waiting | closing failed => simpa [hst, Stage.Fits] using hfit
    | passed =>
      rw [hst] at hfit
      exact hfit.1
    | telling e | told e =>
      rw [hst] at hfit hopen
      cases e with
      | broken => simp [Stage.phase, Phase.isOpen] at hopen
      | settled failed => exact hfit.1
    | _ => simp [hst, Stage.phase, Phase.isOpen] at hopen
  refine ⟨hstarted, hbreaks, fun hs => ⟨?_, ?_, ?_, ?_⟩⟩
  · rw [hm.pooled.dispatched]
    refine ⟨hs, ?_⟩
    cases hst : st id <;> simp_all [Stage.isSent, Stage.phase, Phase.isOpen]
  · rw [hm.pooled.flights]
    intro hst
    simp [hst, Stage.phase, Phase.isOpen] at hopen
  · simpa [Plan.breaks, hs] using hbreaks
  · rw [hm.statuses id, if_pos hid, hs]
    cases hst : st id with
    | telling e | told e => cases e <;> simp_all [Stage.status, Stage.phase, Phase.isOpen]
    | _ => simp_all [Stage.status, Stage.phase, Phase.isOpen]

/-- A job that a run of a compiled plan has started, or is about to start, comes after the own
work of all jobs above it and after everything under the jobs before it on its chain. -/
theorem started_in_order {r : Registry} {args : Scope} {n : Node} {limit : Nat}
    (h : compile r args n = .ok p.table) (hs : Reachable p limit fails s)
    (hid : s.Started id ∨ .start id ∈ s.events) :
    (∀ a, Relation.TransGen p.Under id a → s.Started a ∧ p.breaks fails a = false ∧
      (p.isStructural a = false → s.Worked fails a)) ∧
    ∀ q, Relation.TransGen (fun a b => p.next? a = some b) q id →
      ∀ k ∈ p.subtree q, s.statuses.get? k = some .complete := by
  have hp := Plan.branching_of_compile h
  obtain ⟨st, hc, hm⟩ := reachable_matches hp hs
  have hbegun := hm.begun hid
  constructor
  · intro a ha
    have hopen := isOpen_above hc hbegun ha
    refine hm.worked hc (hc.mem_ids fun he => ?_) hopen
    rw [he] at hopen
    cases hopen
  · intro q hq k hk
    have hpassed : st q = .passed := by
      obtain ⟨n, hn, hlead⟩ := Relation.TransGen.head'_iff.mp hq
      have hfirst : st n ≠ .idle := by
        rcases Leads.passed hc hlead hbegun with rfl | hst
        · exact hbegun
        · simp [hst]
      exact passed_of_next hc hn hfirst
    have hwell := isWell_under hp hc (.inl hpassed) (Plan.mem_subtree (Plan.owned_of_compile h) hk)
    have hkid : k ∈ p.ids := hc.mem_ids fun he => by
      rw [he] at hwell
      rcases hwell with hst | hst <;> cases hst
    rw [hm.statuses k, if_pos hkid, hwell.status]

/-- The second notification of a branch comes after the first, and after the branch itself. -/
theorem notifyPlan_in_order : ∃ s, Reachable notifyPlan 2 (fun _ => false) s ∧ s.Started 4 ∧
    s.Started 2 ∧ s.Started 1 ∧
    ∀ k ∈ notifyPlan.subtree 3, s.statuses.get? k = some .complete := by
  have hrun : (runScript notifyPlan 2 ⟨[], []⟩).map (·.statuses.get? 4) =
      some (some .complete) := by
    decide +kernel
  obtain ⟨s, hs, hfourth⟩ := Option.map_eq_some_iff.mp hrun
  have hreach : Reachable notifyPlan 2 (fun _ => false) s :=
    (reachable_of_runScript (fun f => by simp [Script.fails, Script.cue]) hs).1
  have hstarted : s.Started 4 := ⟨.complete, hfourth, nofun⟩
  obtain ⟨habove, hbefore⟩ := started_in_order notifyJobs_compiled hreach (.inl hstarted)
  have hbranch : Relation.TransGen notifyPlan.Under 4 2 := .single rfl
  have hroot : Relation.TransGen notifyPlan.Under 4 1 := hbranch.tail rfl
  exact ⟨s, hreach, hstarted, (habove 2 hbranch).1, (habove 1 hroot).1, hbefore 3 (.single rfl)⟩

end Run

end Workflow
