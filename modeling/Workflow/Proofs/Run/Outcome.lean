import Workflow.Proofs.Run.Simulation

/-!
What a run of a plan must come to, found by one recursion over the plan with no queue, no events
and no counters in it.
-/

namespace Workflow

namespace Run

/-- The jobs that are reached from one on, their statuses in the end, and whether the chain that
the job stands on ends as failed. -/
structure Outcome where
  marks : List (JobId × Status)
  failed : Bool

namespace Outcome

def reached (o : Outcome) : List JobId := o.marks.map Prod.fst

def broken (id : JobId) : Outcome := ⟨[(id, .failed)], true⟩

/-- The branches of a job come to their outcomes, each on its own. -/
def settled (p : Plan) (id : JobId) (below : List Outcome) : Outcome where
  marks := (id, if p.isStructural id && below.any failed then .failed else .complete) ::
    below.flatMap marks
  failed := below.any failed

def followedBy (o after : Outcome) : Outcome := ⟨o.marks ++ after.marks, after.failed⟩

/-- Every job as it is in the end, those that are not reached as in the beginning. -/
def statuses (p : Plan) (o : Outcome) : SortedMap JobId Status :=
  (SortedMap.ofList (p.ids.map fun id => (id, Status.initialized))).insertAll o.marks

end Outcome

/-- The outcome from a job on; `none` if more than `bound` jobs lead to one another. -/
def outcomeFrom (p : Plan) (fails : JobId → Bool) : (bound : Nat) → JobId → Option Outcome
  | 0, _ => none
  | bound + 1, id =>
    if p.breaks fails id then some (.broken id)
    else do
      let below ← (p.branches id).mapM (outcomeFrom p fails bound)
      let here := Outcome.settled p id below
      match p.next? id, here.failed with
      | some next, false => (outcomeFrom p fails bound next).map here.followedBy
      | _, _ => some here

def outcome? (p : Plan) (fails : JobId → Bool) : Option Outcome :=
  outcomeFrom p fails (p.size + 1) p.root

/-- The outcome from a job on, told from those of the jobs that it leads to. -/
def Outcome.ofJob (p : Plan) (fails : JobId → Bool) (F : JobId → Outcome) (id : JobId) : Outcome :=
  if p.breaks fails id then .broken id
  else
    let here := settled p id ((p.branches id).map F)
    match p.next? id, here.failed with
    | some next, false => here.followedBy (F next)
    | _, _ => here

variable {p : Plan} {fails : JobId → Bool} {F : JobId → Outcome} {id : JobId}

/-- With the outcomes of the jobs that a job leads to, its own is found. -/
theorem outcomeFrom_succ {bound : Nat}
    (hb : ∀ b ∈ p.branches id, outcomeFrom p fails bound b = some (F b))
    (hn : ∀ n, p.next? id = some n → outcomeFrom p fails bound n = some (F n)) :
    outcomeFrom p fails (bound + 1) id = some (Outcome.ofJob p fails F id) := by
  rw [outcomeFrom, Outcome.ofJob]
  by_cases hbr : p.breaks fails id = true
  · rw [if_pos hbr, if_pos hbr]
  · rw [if_neg hbr, if_neg hbr, Option.mapM_eq_some hb]
    simp only [Option.bind_eq_bind, Option.bind_some]
    cases hnext : p.next? id with
    | none => rfl
    | some n =>
      cases (Outcome.settled p id ((p.branches id).map F)).failed with
      | true => rfl
      | false => simp [hn n hnext]

theorem lt_of_branch (hp : p.Branching) {b : JobId} (hb : b ∈ p.branches id) :
    b ∈ p.ids ∧ id < b := by
  have hpar := hp.branch id b hb
  exact ⟨Plan.mem_ids_of_parent? hpar, (hp.parent b id hpar).2⟩

/-- Every job has an outcome, which does not depend on the bound. -/
theorem exists_outcomes (hp : p.Branching) (fails : JobId → Bool) :
    ∃ F : JobId → Outcome, ∀ id ∈ p.ids, F id = Outcome.ofJob p fails F id ∧
      ∀ bound, p.size < bound + id → outcomeFrom p fails bound id = some (F id) := by
  refine ⟨fun id => (outcomeFrom p fails (p.size + 1) id).getD (.broken id), ?_⟩
  refine Plan.induction_down fun id hid ih => ?_
  have hsize := (Plan.mem_ids_iff.mp hid).2
  have hstep : ∀ bound, p.size < bound + 1 + id →
      outcomeFrom p fails (bound + 1) id = some (Outcome.ofJob p fails
        (fun id => (outcomeFrom p fails (p.size + 1) id).getD (.broken id)) id) := by
    intro bound hb
    refine outcomeFrom_succ (fun b hm => ?_) fun n hn => ?_
    · obtain ⟨hbids, hlt⟩ := lt_of_branch hp hm
      exact (ih b hbids hlt).2 bound (by lia)
    · obtain ⟨hnids, hlt, -⟩ := hp.next id n hn
      exact (ih n hnids hlt).2 bound (by lia)
  have hself : (outcomeFrom p fails (p.size + 1) id).getD (.broken id) = Outcome.ofJob p fails
      (fun id => (outcomeFrom p fails (p.size + 1) id).getD (.broken id)) id := by
    rw [hstep p.size (by lia)]
    rfl
  refine ⟨hself, fun bound hb => ?_⟩
  cases bound with
  | zero => lia
  | succ bound =>
    rw [hstep bound hb]
    exact congrArg some hself.symm

/-! ### Failures -/

theorem Outcome.reached_settled (p : Plan) (id : JobId) (below : List Outcome) :
    (Outcome.settled p id below).reached = id :: below.flatMap Outcome.reached := by
  simp only [reached, settled, List.map_cons, List.map_flatMap]
  rfl

theorem Outcome.reached_followedBy (o after : Outcome) :
    (o.followedBy after).reached = o.reached ++ after.reached := by
  simp [reached, followedBy]

/-- The three ways in which a chain may go on at a job. -/
theorem Outcome.ofJob_cases (p : Plan) (fails : JobId → Bool) (F : JobId → Outcome) (id : JobId) :
    (p.breaks fails id = true ∧ Outcome.ofJob p fails F id = .broken id) ∨
    p.breaks fails id = false ∧
      ((∃ n, p.next? id = some n ∧ (settled p id ((p.branches id).map F)).failed = false ∧
        Outcome.ofJob p fails F id = (settled p id ((p.branches id).map F)).followedBy (F n)) ∨
      ((p.next? id = none ∨ (settled p id ((p.branches id).map F)).failed = true) ∧
        Outcome.ofJob p fails F id = settled p id ((p.branches id).map F))) := by
  unfold Outcome.ofJob
  by_cases hb : p.breaks fails id = true
  · rw [if_pos hb]
    exact .inl ⟨hb, rfl⟩
  · rw [if_neg hb]
    refine .inr ⟨by simpa using hb, ?_⟩
    cases hn : p.next? id with
    | none => exact .inr ⟨.inl rfl, rfl⟩
    | some n =>
      cases hf : (settled p id ((p.branches id).map F)).failed with
      | true => exact .inr ⟨.inr rfl, by simp only [hf]⟩
      | false => exact .inl ⟨n, rfl, rfl, by simp only [hf]⟩

theorem settled_failed_iff : (Outcome.settled p id ((p.branches id).map F)).failed = true ↔
    ∃ b ∈ p.branches id, (F b).failed = true := by
  simp [Outcome.settled]

/-- What lies under a job fails if and only if the work of a job that is reached there does. -/
theorem settled_failed_iff_breaks (hb : p.breaks fails id = false)
    (ih : ∀ b ∈ p.branches id,
      (F b).failed = true ↔ ∃ k ∈ (F b).reached, p.breaks fails k = true) :
    (Outcome.settled p id ((p.branches id).map F)).failed = true ↔
      ∃ k ∈ (Outcome.settled p id ((p.branches id).map F)).reached,
        p.breaks fails k = true := by
  rw [settled_failed_iff, Outcome.reached_settled]
  constructor
  · intro hx
    obtain ⟨b, hm, hf⟩ := hx
    obtain ⟨k, hk, hbr⟩ := (ih b hm).mp hf
    refine ⟨k, List.mem_cons_of_mem _ (List.mem_flatMap.mpr ⟨F b, ?_, hk⟩), hbr⟩
    exact List.mem_map_of_mem hm
  · intro hx
    obtain ⟨k, hk, hbr⟩ := hx
    rcases List.mem_cons.mp hk with rfl | hk
    · rw [hb] at hbr
      cases hbr
    · obtain ⟨o, ho, hk⟩ := List.mem_flatMap.mp hk
      obtain ⟨b, hm, rfl⟩ := List.mem_map.mp ho
      exact ⟨b, hm, (ih b hm).mpr ⟨k, hk, hbr⟩⟩

/-- A chain fails if and only if the work of a job that is reached on it, or under it, fails. -/
theorem failed_iff (hp : p.Branching)
    (hF : ∀ id ∈ p.ids, F id = Outcome.ofJob p fails F id) :
    ∀ id ∈ p.ids, (F id).failed = true ↔ ∃ k ∈ (F id).reached, p.breaks fails k = true := by
  refine Plan.induction_down fun id hid ih => ?_
  have hbelow : ∀ b ∈ p.branches id,
      (F b).failed = true ↔ ∃ k ∈ (F b).reached, p.breaks fails k = true := by
    intro b hm
    obtain ⟨hbids, hlt⟩ := lt_of_branch hp hm
    exact ih b hbids hlt
  rw [hF id hid]
  rcases Outcome.ofJob_cases p fails F id with
    ⟨hb, he⟩ | ⟨hb, ⟨n, hn, hf, he⟩ | ⟨-, he⟩⟩
  · rw [he]
    simpa [Outcome.broken, Outcome.reached] using hb
  · obtain ⟨hnids, hlt, -⟩ := hp.next id n hn
    rw [he, Outcome.reached_followedBy]
    have hnone : ∀ k ∈ (Outcome.settled p id ((p.branches id).map F)).reached,
        ¬ p.breaks fails k = true := by
      intro k hk hbr
      have := (settled_failed_iff_breaks hb hbelow).mpr ⟨k, hk, hbr⟩
      rw [hf] at this
      cases this
    refine (ih n hnids hlt).trans ⟨?_, ?_⟩
    · intro hx
      obtain ⟨k, hk, hbr⟩ := hx
      exact ⟨k, List.mem_append_right _ hk, hbr⟩
    · intro hx
      obtain ⟨k, hk, hbr⟩ := hx
      rcases List.mem_append.mp hk with hk | hk
      · exact absurd hbr (hnone k hk)
      · exact ⟨k, hk, hbr⟩
  · rw [he]
    exact settled_failed_iff_breaks hb hbelow

end Run

end Workflow
