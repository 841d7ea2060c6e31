import Workflow.Proofs.Run.Outcome

/-!
Every run of a compiled plan that is over agrees with the outcome of the plan, whatever room there
was for units in flight and in whatever order these ended.
-/

namespace Workflow

namespace Run

/-- A job that no run moves any more. -/
def Stage.IsFinal (x : Stage) : Prop := x = .idle ∨ x = .passed ∨ ∃ e, x = .told e

variable {p : Plan} {fails : JobId → Bool} {st : JobId → Stage} {F : JobId → Outcome}
  {id : JobId}

theorem Matches.event?_of_events_nil {s : State} (h : Matches p s st) (hevents : s.events = [])
    (hid : id ∈ p.ids) : (st id).event? p id = none := by
  cases hev : (st id).event? p id with
  | none => rfl
  | some e =>
    have hle := le_total (fun id x => if x.event? p id = some e then 1 else 0) st hid
    have hcount := h.events e
    rw [hevents, waits] at hcount
    rw [if_pos hev] at hle
    simp only [List.count_nil] at hcount
    omega

/-- Nothing is left to be done when a run is over. -/
theorem final_of_over {limit : Nat} {s : State} (hp : p.Branching) (hc : Consistent p fails st)
    (h : Matches p s st) (ho : s.IsOver p limit) : ∀ id, (st id).IsFinal := by
  obtain ⟨hstep, hempty⟩ := ho
  obtain ⟨hevents, hroom⟩ := step?_eq_none hstep
  have hqueue : s.queue = [] := by
    apply hroom
    rw [hempty]
    exact Nat.lt_of_lt_of_le Nat.one_pos (Nat.le_max_right limit 1)
  have hstill : ∀ id ∈ p.ids, st id ≠ .waiting → (st id).IsFinal := by
    intro id hid hw
    have hev := h.event?_of_events_nil hevents hid
    have hq := h.pooled.queue id
    have hf := h.pooled.flights id
    rw [hqueue] at hq
    rw [hempty] at hf
    cases hst : st id with
    | idle => exact .inl rfl
    | passed => exact .inr (.inl rfl)
    | told e => exact .inr (.inr ⟨e, rfl⟩)
    | waiting => exact absurd hst hw
    | queued => simp [hst] at hq
    | flying => simp [hst] at hf
    | _ => simp [hst, Stage.event?] at hev
  have hfinal : ∀ id ∈ p.ids, (st id).IsFinal := by
    refine Plan.induction_down fun id hid ih => hstill id hid fun hw => ?_
    obtain ⟨c, hc', hlive⟩ := hc.coherent.waiting id (Stage.phase_eq_waiting_iff.mpr hw)
    rcases ih c (Plan.mem_ids_of_parent? hc') (hp.parent c id hc').2 with he | he | ⟨e, he⟩ <;>
      simp [he, Stage.phase, Phase.isLive] at hlive
  intro id
  by_cases hid : st id = .idle
  · exact .inl hid
  · exact hfinal id (hc.mem_ids hid)

/-! ### Chains -/

/-- One job leads to another along a chain. -/
abbrev Leads (p : Plan) : JobId → JobId → Prop :=
  Relation.ReflTransGen fun a b => p.next? a = some b

theorem Leads.parent (hp : p.Branching) {a b : JobId} (h : Leads p a b) :
    p.parent? b = p.parent? a := by
  induction h with
  | refl => rfl
  | tail _ hn ih => rw [(hp.next _ _ hn).2.2, ih]

/-- Every job under another stands on the chain of one of its branches. -/
theorem exists_branch_leads (hp : p.Branching) {c o : JobId} (h : p.parent? c = some o) :
    ∃ b ∈ p.branches o, Leads p b c := by
  induction c using Nat.strongRecOn with
  | ind c ih =>
    rcases hp.child c o h with hb | ⟨q, hq⟩
    · exact ⟨c, hb, .refl⟩
    · obtain ⟨-, hlt, hpar⟩ := hp.next q c hq
      obtain ⟨b, hb, hlead⟩ := ih q hlt (by rw [← hpar, h])
      exact ⟨b, hb, hlead.tail hq⟩

/-- A job that has begun was passed on to by all jobs before it on its chain. -/
theorem Leads.passed (hc : Consistent p fails st) {a b : JobId} (h : Leads p a b)
    (hb : st b ≠ .idle) : a = b ∨ st a = .passed := by
  induction h using Relation.ReflTransGen.head_induction_on with
  | refl => exact .inl rfl
  | @head a c hn _ ih =>
    have hbegun : st c ≠ .idle := by
      rcases ih with rfl | he
      · exact hb
      · simp [he]
    have hphase : (st c).phase ≠ .idle := fun he => hbegun (Stage.phase_eq_idle_iff.mp he)
    exact .inr (Stage.phase_eq_passed_iff.mp ((hc.coherent.next a c hn).mp hphase))

/-! ### Stages in the end and the outcome -/

/-- What the outcome from a job on tells of the stages in the end. -/
structure Tells (p : Plan) (st : JobId → Stage) (id : JobId) (o : Outcome) : Prop where
  head : id ∈ o.reached
  marks : ∀ k x, (k, x) ∈ o.marks → st k ≠ .idle ∧ x = (st k).status (p.isStructural k)
  branch : ∀ k ∈ o.reached, ∀ b ∈ p.branches k, st b ≠ .idle → b ∈ o.reached
  next : ∀ k ∈ o.reached, ∀ n, p.next? k = some n → st n ≠ .idle → n ∈ o.reached
  failed : o.failed = true ↔ ∃ c, Leads p id c ∧ (st c).phase.isLost = true

theorem isOpen_of_branch (hp : p.Branching) (hc : Consistent p fails st) {b : JobId}
    (hb : b ∈ p.branches id) (hne : st b ≠ .idle) : (st id).phase.isOpen = true :=
  hc.coherent.parent b id (hp.branch id b hb) fun he => hne (Stage.phase_eq_idle_iff.mp he)

theorem passed_of_next (hc : Consistent p fails st) {n : JobId} (hn : p.next? id = some n)
    (hne : st n ≠ .idle) : st id = .passed :=
  Stage.phase_eq_passed_iff.mp ((hc.coherent.next id n hn).mp fun he =>
    hne (Stage.phase_eq_idle_iff.mp he))

/-- A job whose own work fails is all that is reached of its chain. -/
theorem Tells.broken (hp : p.Branching) (hc : Consistent p fails st)
    (hst : st id = .told .broken) : Tells p st id (.broken id) where
  head := List.mem_cons_self
  marks := by
    intro k x hm
    obtain ⟨rfl, rfl⟩ := Prod.mk.inj (List.mem_singleton.mp hm)
    simp [hst, Stage.status]
  branch := by
    intro k hk b hb hne
    obtain rfl := List.mem_singleton.mp hk
    have hopen := isOpen_of_branch hp hc hb hne
    rw [hst] at hopen
    cases hopen
  next := by
    intro k hk n hn hne
    obtain rfl := List.mem_singleton.mp hk
    cases hst.symm.trans (passed_of_next hc hn hne)
  failed := ⟨fun _ => ⟨id, .refl, by rw [hst]; rfl⟩, fun _ => rfl⟩

/-- The outcomes of the branches of a job tell of everything under it. -/
theorem settled_failed_iff_lost (hp : p.Branching)
    (ih : ∀ b ∈ p.branches id, Tells p st b (F b)) :
    (Outcome.settled p id ((p.branches id).map F)).failed = true ↔
      ∃ c, p.parent? c = some id ∧ (st c).phase.isLost = true := by
  rw [settled_failed_iff]
  constructor
  · intro hx
    obtain ⟨b, hb, hf⟩ := hx
    obtain ⟨c, hlead, hlost⟩ := (ih b hb).failed.mp hf
    exact ⟨c, (hlead.parent hp).trans (hp.branch id b hb), hlost⟩
  · intro hx
    obtain ⟨c, hc, hlost⟩ := hx
    obtain ⟨b, hb, hlead⟩ := exists_branch_leads hp hc
    exact ⟨b, hb, (ih b hb).failed.mpr ⟨c, hlead, hlost⟩⟩

theorem mem_reached_settled {k : JobId} :
    k ∈ (Outcome.settled p id ((p.branches id).map F)).reached ↔
      k = id ∨ ∃ b ∈ p.branches id, k ∈ (F b).reached := by
  simp [Outcome.reached_settled]

/-- What lies under a job is told by its branches; only what follows the job is left open. -/
structure TellsBelow (p : Plan) (st : JobId → Stage) (id : JobId) (o : Outcome) : Prop where
  head : id ∈ o.reached
  marks : ∀ k x, (k, x) ∈ o.marks → st k ≠ .idle ∧ x = (st k).status (p.isStructural k)
  branch : ∀ k ∈ o.reached, ∀ b ∈ p.branches k, st b ≠ .idle → b ∈ o.reached
  next : ∀ k ∈ o.reached, k ≠ id → ∀ n, p.next? k = some n → st n ≠ .idle → n ∈ o.reached

theorem TellsBelow.settled (ih : ∀ b ∈ p.branches id, Tells p st b (F b))
    (hne : st id ≠ .idle)
    (hself : (st id).status (p.isStructural id) = if p.isStructural id &&
      (Outcome.settled p id ((p.branches id).map F)).failed then .failed else .complete) :
    TellsBelow p st id (Outcome.settled p id ((p.branches id).map F)) where
  head := mem_reached_settled.mpr (.inl rfl)
  marks := by
    intro k x hm
    rcases List.mem_cons.mp hm with he | hm
    · obtain ⟨rfl, rfl⟩ := Prod.mk.inj he
      exact ⟨hne, hself.symm⟩
    · obtain ⟨o, ho, hm⟩ := List.mem_flatMap.mp hm
      obtain ⟨b, hb, rfl⟩ := List.mem_map.mp ho
      exact (ih b hb).marks k x hm
  branch := by
    intro k hk b hb hbne
    rcases mem_reached_settled.mp hk with rfl | ⟨c, hc, hk⟩
    · exact mem_reached_settled.mpr (.inr ⟨b, hb, (ih b hb).head⟩)
    · exact mem_reached_settled.mpr (.inr ⟨c, hc, (ih c hc).branch k hk b hb hbne⟩)
  next := by
    intro k hk hkid n hn hnne
    rcases mem_reached_settled.mp hk with rfl | ⟨c, hc, hk⟩
    · exact absurd rfl hkid
    · exact mem_reached_settled.mpr (.inr ⟨c, hc, (ih c hc).next k hk n hn hnne⟩)

/-- A chain that ends with a job ends as everything under the job does. -/
theorem Tells.last {failed : Bool} {o : Outcome} (hc : Consistent p fails st)
    (hst : st id = .told (.settled failed)) (h : TellsBelow p st id o) (hf : o.failed = failed) :
    Tells p st id o where
  head := h.head
  marks := h.marks
  branch := h.branch
  next := by
    intro k hk n hn hne
    by_cases hkid : k = id
    · subst hkid
      cases hst.symm.trans (passed_of_next hc hn hne)
    · exact h.next k hk hkid n hn hne
  failed := by
    have hlost : (st id).phase.isLost = failed := by rw [hst]; rfl
    rw [hf, ← hlost]
    refine ⟨fun hl => ⟨id, .refl, hl⟩, ?_⟩
    intro hx
    obtain ⟨c, hlead, hl⟩ := hx
    have hbegun : st c ≠ .idle := by
      intro he
      simp [he, Stage.phase, Phase.isLost] at hl
    rcases hlead.passed hc hbegun with rfl | he
    · exact hl
    · cases hst.symm.trans he

/-- A chain that goes on behind a job ends as the rest of it does. -/
theorem Tells.followedBy {n : JobId} {o after : Outcome} (hst : st id = .passed)
    (hn : p.next? id = some n) (h : TellsBelow p st id o) (ha : Tells p st n after) :
    Tells p st id (o.followedBy after) where
  head := by
    rw [Outcome.reached_followedBy]
    exact List.mem_append_left _ h.head
  marks := by
    intro k x hm
    rcases List.mem_append.mp hm with hm | hm
    · exact h.marks k x hm
    · exact ha.marks k x hm
  branch := by
    rw [Outcome.reached_followedBy]
    intro k hk b hb hne
    rcases List.mem_append.mp hk with hk | hk
    · exact List.mem_append_left _ (h.branch k hk b hb hne)
    · exact List.mem_append_right _ (ha.branch k hk b hb hne)
  next := by
    rw [Outcome.reached_followedBy]
    intro k hk m hm hne
    rcases List.mem_append.mp hk with hk | hk
    · by_cases hkid : k = id
      · subst hkid
        obtain rfl := Option.some.inj (hn.symm.trans hm)
        exact List.mem_append_right _ ha.head
      · exact List.mem_append_left _ (h.next k hk hkid m hm hne)
    · exact List.mem_append_right _ (ha.next k hk m hm hne)
  failed := by
    refine ha.failed.trans ⟨?_, ?_⟩
    · intro hx
      obtain ⟨c, hlead, hl⟩ := hx
      exact ⟨c, hlead.head hn, hl⟩
    · intro hx
      obtain ⟨c, hlead, hl⟩ := hx
      rcases Relation.ReflTransGen.cases_head hlead with rfl | ⟨m, hm, hlead⟩
      · simp [hst, Stage.phase, Phase.isLost] at hl
      · obtain rfl := Option.some.inj (hn.symm.trans hm)
        exact ⟨c, hlead, hl⟩

/-- What is known of the jobs under a job is what their outcomes say. -/
theorem settled_failed_eq {f : Bool} (hp : p.Branching) (hc : Consistent p fails st)
    (hb : ∀ b ∈ p.branches id, Tells p st b (F b)) (hf : (st id).phase.verdict? = some f) :
    (Outcome.settled p id ((p.branches id).map F)).failed = f := by
  rw [Bool.eq_iff_iff, settled_failed_iff_lost hp hb, hc.coherent.verdict id f hf]

theorem Tells.of_passed (hp : p.Branching) (hc : Consistent p fails st) (hst : st id = .passed)
    (hb : ∀ b ∈ p.branches id, Tells p st b (F b))
    (hnext : ∀ n, p.next? id = some n → st n ≠ .idle → Tells p st n (F n)) :
    Tells p st id (Outcome.ofJob p fails F id) := by
  have hfit := hc.fits id
  rw [hst] at hfit
  obtain ⟨n, hn⟩ := Option.ne_none_iff_exists'.mp hfit.2
  have hf := settled_failed_eq (f := false) hp hc hb (by rw [hst]; rfl)
  have hbegun : st n ≠ .idle := by
    have hphase := (hc.coherent.next id n hn).mpr (by rw [hst]; rfl)
    exact fun he => hphase (by rw [he]; rfl)
  rcases Outcome.ofJob_cases p fails F id with ⟨hbr, -⟩ | ⟨-, ⟨m, hm, -, he⟩ | ⟨hlast, -⟩⟩
  · rw [hfit.1] at hbr
    cases hbr
  · obtain rfl := Option.some.inj (hn.symm.trans hm)
    rw [he]
    refine Tells.followedBy hst hn (TellsBelow.settled hb (by simp [hst]) ?_) (hnext n hn hbegun)
    rw [hst, hf]
    simp [Stage.status]
  · rw [hn, hf] at hlast
    simp at hlast

theorem Tells.of_told {e : Ending} (hp : p.Branching) (hc : Consistent p fails st)
    (hst : st id = .told e)
    (hb : (st id).phase.isOpen = true → ∀ b ∈ p.branches id, Tells p st b (F b)) :
    Tells p st id (Outcome.ofJob p fails F id) := by
  have hfit := hc.fits id
  rw [hst] at hfit
  have hcases := Outcome.ofJob_cases p fails F id
  cases e with
  | broken =>
    rcases hcases with ⟨-, he⟩ | ⟨hbr, -⟩
    · rw [he]
      exact Tells.broken hp hc hst
    · rw [show p.breaks fails id = true from hfit] at hbr
      cases hbr
  | settled failed =>
    have hbelow := hb (by rw [hst]; rfl)
    have hf := settled_failed_eq (f := failed) hp hc hbelow (by rw [hst]; rfl)
    rcases hcases with ⟨hbr, -⟩ | ⟨-, ⟨m, hm, hfalse, -⟩ | ⟨-, he⟩⟩
    · rw [hfit.1] at hbr
      cases hbr
    · rw [hfit.2 (hf.symm.trans hfalse)] at hm
      cases hm
    · rw [he]
      refine Tells.last hc hst (TellsBelow.settled hbelow (by simp [hst]) ?_) hf
      rw [hst, hf]
      rfl

/-- When everything is still, the outcome from each job that has begun tells of its stage. -/
theorem tells_of_final (hp : p.Branching) (hc : Consistent p fails st)
    (hfinal : ∀ id, (st id).IsFinal) (hF : ∀ id ∈ p.ids, F id = Outcome.ofJob p fails F id) :
    ∀ id ∈ p.ids, st id ≠ .idle → Tells p st id (F id) := by
  -- Branches and followers have greater ids, so their outcomes are there before that of the job.
  refine Plan.induction_down fun id hid ih hne => ?_
  rw [hF id hid]
  have hbelow : (st id).phase.isOpen = true → ∀ b ∈ p.branches id, Tells p st b (F b) := by
    intro hopen b hb
    obtain ⟨hbids, hlt⟩ := lt_of_branch hp hb
    refine ih b hbids hlt fun he => hc.coherent.branch id b hb hopen ?_
    rw [he]
    rfl
  rcases hfinal id with hst | hst | ⟨e, hst⟩
  · exact absurd hst hne
  · refine Tells.of_passed hp hc hst (hbelow (by rw [hst]; rfl)) fun n hn hbegun => ?_
    obtain ⟨hnids, hlt, -⟩ := hp.next id n hn
    exact ih n hnids hlt hbegun
  · exact Tells.of_told hp hc hst hbelow

theorem Tells.mem_reached_iff {o : Outcome} (hp : p.Branching) (hc : Consistent p fails st)
    (h : Tells p st p.root o) (id : JobId) : id ∈ o.reached ↔ st id ≠ .idle := by
  constructor
  · intro hm
    obtain ⟨⟨k, x⟩, hkx, rfl⟩ := List.mem_map.mp hm
    exact (h.marks k x hkx).1
  · intro hne
    induction id using Nat.strongRecOn with
    | ind id ih =>
      cases hpar : p.parent? id with
      | none =>
        rw [hp.parent_none id (hc.mem_ids hne) hpar]
        exact h.head
      | some o' =>
        rcases hp.child id o' hpar with hb | ⟨q, hq⟩
        · have hopen := isOpen_of_branch hp hc hb hne
          have hbegun : st o' ≠ .idle := by
            intro he
            rw [he] at hopen
            cases hopen
          exact h.branch o' (ih o' (hp.parent id o' hpar).2 hbegun) id hb hne
        · have hpassed := passed_of_next hc hq hne
          exact h.next q (ih q (hp.next q id hq).2.1 (by simp [hpassed])) id hq hne

/-! ### Runs that are over -/

/-- A state in which a run ends as the outcome says. -/
structure Agrees (p : Plan) (fails : JobId → Bool) (o : Outcome) (s : State) : Prop where
  statuses : s.statuses = o.statuses p
  dispatched_nodup : s.dispatched.Nodup
  dispatched : ∀ id, id ∈ s.dispatched ↔ id ∈ o.reached ∧ p.isStructural id = false
  finished : s.finished = some o.failed
  succeeded : s.succeeded = true ↔ ∀ id ∈ s.dispatched, fails id = false

theorem root_next (hp : p.Branching) : p.next? p.root = none := by
  cases hn : p.next? p.root with
  | none => rfl
  | some n =>
    obtain ⟨hnids, hlt, hpar⟩ := hp.next p.root n hn
    rw [hp.root_parent] at hpar
    have := hp.parent_none n hnids hpar
    lia

theorem isSent_of_final {x : Stage} (h : x.IsFinal) : x.isSent = true ↔ x ≠ .idle := by
  rcases h with rfl | rfl | ⟨e, rfl⟩ <;> simp [Stage.isSent]

theorem Tells.statuses {o : Outcome} {s : State} (hp : p.Branching) (hc : Consistent p fails st)
    (hm : Matches p s st) (h : Tells p st p.root o) : s.statuses = o.statuses p := by
  refine SortedMap.ext_get? fun id => ?_
  have hmark : ∀ k x, (k, x) ∈ o.marks → x = (st k).status (p.isStructural k) :=
    fun k x hkx => (h.marks k x hkx).2
  have hfirst : (SortedMap.ofList (p.ids.map fun id => (id, Status.initialized))).get? id =
      if id ∈ p.ids then some .initialized else none :=
    SortedMap.get?_ofList_map p.table.keys_ascend id
  rw [hm.statuses, Outcome.statuses, SortedMap.get?_insertAll hmark, hfirst]
  have hreached := h.mem_reached_iff hp hc id
  rw [Outcome.reached] at hreached
  by_cases hidle : st id = .idle
  · rw [if_neg (fun hr => hreached.mp hr hidle), hidle]
    rfl
  · rw [if_pos (hreached.mpr hidle), if_pos (hc.mem_ids hidle)]

theorem Tells.ended {o : Outcome} (hp : p.Branching) (hc : Consistent p fails st)
    (hfinal : (st p.root).IsFinal) (h : Tells p st p.root o) :
    (st p.root).ended? = some o.failed := by
  have hroot : st p.root ≠ .idle := (h.mem_reached_iff hp hc p.root).mp h.head
  have hpassed : st p.root ≠ .passed := by
    intro hst
    have hfit := hc.fits p.root
    rw [hst] at hfit
    exact hfit.2 (root_next hp)
  obtain ⟨e, hst⟩ := (hfinal.resolve_left hroot).resolve_left hpassed
  have hlost : (st p.root).phase.isLost = e.failed := by rw [hst]; rfl
  have hfailed : o.failed = e.failed := by
    rw [Bool.eq_iff_iff, h.failed, ← hlost]
    refine ⟨?_, fun hl => ⟨p.root, .refl, hl⟩⟩
    intro hx
    obtain ⟨c, hlead, hl⟩ := hx
    have hbegun : st c ≠ .idle := by
      intro he
      simp [he, Stage.phase, Phase.isLost] at hl
    rcases hlead.passed hc hbegun with he | he
    · rw [he]
      exact hl
    · exact absurd he hpassed
  rw [hst, hfailed]
  rfl

theorem agrees_of_over {limit : Nat} {s : State} (hp : p.Branching)
    (hF : ∀ id ∈ p.ids, F id = Outcome.ofJob p fails F id) (hr : Reachable p limit fails s)
    (ho : s.IsOver p limit) : Agrees p fails (F p.root) s := by
  obtain ⟨st, hc, hm⟩ := reachable_matches hp hr
  have hfinal := final_of_over hp hc hm ho
  have hroot : st p.root ≠ .idle := fun he => hc.coherent.root (by rw [he]; rfl)
  have h := tells_of_final hp hc hfinal hF p.root hp.root hroot
  have hdispatched : ∀ id, id ∈ s.dispatched ↔
      id ∈ (F p.root).reached ∧ p.isStructural id = false := by
    intro id
    rw [hm.pooled.dispatched, isSent_of_final (hfinal id), h.mem_reached_iff hp hc id, and_comm]
  have hfinished : s.finished = some (F p.root).failed :=
    hm.finished.trans (h.ended hp hc (hfinal p.root))
  refine ⟨h.statuses hp hc hm, hm.pooled.dispatched_nodup, hdispatched, hfinished, ?_⟩
  have hsucceeded : s.succeeded = true ↔ ¬ (F p.root).failed = true := by
    rw [State.succeeded, hfinished]
    cases (F p.root).failed <;> simp
  rw [hsucceeded, failed_iff hp hF p.root hp.root]
  constructor
  · intro hnone id hid
    obtain ⟨hreached, hs⟩ := (hdispatched id).mp hid
    by_contra hf
    exact hnone ⟨id, hreached, by simpa [Plan.breaks, hs] using hf⟩
  · rintro hall ⟨k, hk, hb⟩
    obtain ⟨hs, hf⟩ : p.isStructural k = false ∧ fails k = true := by
      simpa [Plan.breaks] using hb
    rw [hall k ((hdispatched k).mpr ⟨hk, hs⟩)] at hf
    cases hf

/-- From every state that a run comes to, the run can be brought to its end. -/
theorem exists_over {limit : Nat} {s : State} (hp : p.Branching)
    (hr : Reachable p limit fails s) :
    ∃ t, Relation.ReflTransGen (Move p limit fails) s t ∧ t.IsOver p limit := by
  obtain ⟨st, hc, hm⟩ := reachable_matches hp hr
  -- Each move raises the progress of the jobs, which has a bound.
  induction hn : p.size * 8 - progress p st using Nat.strongRecOn generalizing s st with
  | ind n ih =>
    have hmove : s.IsOver p limit ∨ ∃ t, Move p limit fails s t := by
      cases hstep : s.step? p limit with
      | some t => exact .inr ⟨t, .own hstep⟩
      | none =>
        cases hflights : s.inFlight with
        | nil => exact .inl ⟨hstep, hflights⟩
        | cons f fs => exact .inr ⟨_, .ending hstep (f := f) (by simp [hflights])⟩
    rcases hmove with ho | ⟨t, ht⟩
    · exact ⟨s, .refl, ho⟩
    · obtain ⟨st', ha, hm'⟩ := matches_move hp hc hm ht
      have hlt := ha.progress_lt hp hc
      have hle := progress_le p st'
      obtain ⟨u, hu, ho⟩ := ih (p.size * 8 - progress p st') (by omega) (hr.move ht) st'
        (hc.advance hp ha) hm' rfl
      exact ⟨u, .head ht hu, ho⟩

theorem Agrees.same {o : Outcome} {s t : State} (hs : Agrees p fails o s)
    (ht : Agrees p fails o t) : s.statuses = t.statuses ∧ s.succeeded = t.succeeded ∧
      s.dispatched.Perm t.dispatched := by
  refine ⟨hs.statuses.trans ht.statuses.symm, ?_, ?_⟩
  · rw [State.succeeded, State.succeeded, hs.finished, ht.finished]
  · refine (List.perm_ext_iff_of_nodup hs.dispatched_nodup ht.dispatched_nodup).mpr fun id => ?_
    rw [hs.dispatched, ht.dispatched]

theorem Reachable.moves {limit : Nat} {s t : State} (hs : Reachable p limit fails s)
    (h : Relation.ReflTransGen (Move p limit fails) s t) : Reachable p limit fails t := by
  induction h with
  | refl => exact hs
  | tail _ hm ih => exact ih.move hm

/-- However the units of work of a compiled plan end and whatever room there is for them, each run
can be brought to its end, and there it agrees with one and the same outcome. -/
theorem finished_run_agrees {r : Registry} {args : Scope} {n : Node}
    (h : compile r args n = .ok p.table) (fails : JobId → Bool) :
    (∃ o, outcome? p fails = some o ∧ ∀ limit s, Reachable p limit fails s →
      (∃ t, Relation.ReflTransGen (Move p limit fails) s t ∧ t.IsOver p limit) ∧
      (s.IsOver p limit → Agrees p fails o s)) ∧
    ∀ limit limit' s t, Reachable p limit fails s → s.IsOver p limit →
      Reachable p limit' fails t → t.IsOver p limit' →
      s.statuses = t.statuses ∧ s.succeeded = t.succeeded ∧ s.dispatched.Perm t.dispatched := by
  have hp := Plan.branching_of_compile h
  obtain ⟨F, hF⟩ := exists_outcomes hp fails
  have hagrees : ∀ limit s, Reachable p limit fails s → s.IsOver p limit →
      Agrees p fails (F p.root) s := fun limit s hr ho =>
    agrees_of_over hp (fun id hid => (hF id hid).1) hr ho
  have hroot := (Plan.mem_ids_iff.mp hp.root).1
  refine ⟨⟨F p.root, (hF p.root hp.root).2 (p.size + 1) (by lia), fun limit s hr => ?_⟩, ?_⟩
  · exact ⟨exists_over hp hr, hagrees limit s hr⟩
  · intro limit limit' s t hs hos ht hot
    exact (hagrees limit s hs hos).same (hagrees limit' t ht hot)

/-- One of the four units of work fails, and the run ends as its outcome says. -/
theorem notifyTwice_finished : ∃ p o s, compile notifier twoIds notifyTwice = .ok p.table ∧
    outcome? p (· == 3) = some o ∧ Reachable p 2 (· == 3) s ∧ s.IsOver p 2 ∧
    Agrees p (· == 3) o s := by
  obtain ⟨t, ht⟩ := notifyTwice_compiles
  obtain ⟨⟨o, ho, hrun⟩, -⟩ :=
    finished_run_agrees (p := ⟨t, 1, checkTable_compiled ht⟩) ht (· == 3)
  obtain ⟨s, hmoves, hover⟩ := (hrun 2 _ .init).1
  have hs := Reachable.init.moves hmoves
  exact ⟨_, o, s, ht, ho, hs, hover, (hrun 2 s hs).2 hover⟩

end Run

end Workflow
