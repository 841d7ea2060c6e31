import Mathlib.Data.List.Perm.Subperm
import Workflow.Proofs.Run.Once

/-!
Runs that go well. What is started under a job comes to its end there as often as the branches of
the job ask for, so a run that went well has left nothing behind of what it reached.
-/

namespace Workflow

namespace Run

variable {p : Plan} {limit : Nat} {past : List Event} {s : State} {id o : JobId}

/-! ### Ends that went well -/

/-- How many chains under a job have ended since its work did, as long as none failed. -/
def State.ended (s : State) (p : Plan) (id : JobId) : Nat :=
  if id ∈ s.failedOwners ∨ s.counters.outstanding id = 0 then 0
  else (p.branches id).length - s.counters.outstanding id

theorem failedOwners_handle (p : Plan) (s : State) (e : Event) :
    (s.handle p e).failedOwners = e.blames ++ s.failedOwners := by
  rw [handle_eq]

/-- All under a job is done, and went well, only after as many good ends as it has branches. -/
theorem ended_of_event (p : Plan) (s : State) (e : Event) (id : JobId) :
    (p.branches id).length * (e.replies p ++ s.closes e).count (.subtreeDone id false) +
      (s.handle p e).ended p id ≤ s.ended p id + [e].count (.chainEnd (some id) false) := by
  rw [List.count_append, count_replies_subtreeDone, List.count_singleton, State.ended,
    State.ended, failedOwners_handle]
  rcases counter_cases p s e id with ⟨rfl, hb, hn⟩ | ⟨failed, n, rfl, hn, hn', hcloses⟩ |
    ⟨hsame, hnone⟩
  · rcases hn with hn | hn <;> simp [hb, hn]
  · rw [hn, hn', hcloses]
    cases failed with
    | true => cases n <;> simp
    | false =>
      by_cases hfailed : id ∈ s.failedOwners
      · cases n <;> simp [hfailed]
      · cases n with
        | zero =>
          simp [hfailed]
          omega
        | succ n =>
          simp [hfailed]
          omega
  · have hleaf : (p.branches id).length *
        (if e = .workDone id false ∧ p.branches id = [] ∧ false = false then 1 else 0) = 0 := by
      split
      · rename_i h
        rw [h.2.1, List.length_nil, Nat.zero_mul]
      · rw [Nat.mul_zero]
    rw [List.count_eq_zero.mpr (hnone false), Nat.add_zero, hleaf, hsame]
    by_cases hfailed : id ∈ s.failedOwners
    · simp [hfailed]
    · by_cases hblamed : id ∈ e.blames
      · simp [hblamed, -Event.blames]
      · simp [hfailed, hblamed, -Event.blames]

/-- All under a job was done, and went well, only after as many good ends as it has branches. -/
theorem History.ended_le (h : History p limit past s) (id : JobId) :
    (p.branches id).length * (posted past s).count (.subtreeDone id false) + s.ended p id ≤
      past.count (.chainEnd (some id) false) := by
  refine h.induction (motive := fun past s =>
    (p.branches id).length * (posted past s).count (.subtreeDone id false) + s.ended p id ≤
      past.count (.chainEnd (some id) false)) ?_ ?_ ?_
  · simp [posted, Run.init, State.ended, Counters.outstanding_ofSize]
  · intro past s e events _ ih he
    have hnew := ended_of_event p { s with events := events } e id
    have hended : { s with events := events }.ended p id = s.ended p id := rfl
    rw [closes_of_events, hended] at hnew
    have hpast : (past ++ [e]).count (.chainEnd (some id) false) =
      past.count (.chainEnd (some id) false) + [e].count (.chainEnd (some id) false) :=
      List.count_append
    rw [posted_handle he, List.count_append, Nat.mul_add, hpast]
    omega
  · intro past s f failed _ ih _
    have hended : (s.finish f failed).ended p id = s.ended p id := rfl
    rw [posted_finish, hended, List.count_append]
    simpa using ih

theorem History.of_finished (h : History p limit past s) {failed : Bool}
    (hs : s.finished = some failed) : .chainEnd none failed ∈ past := by
  refine (h.induction (motive := fun past s =>
    s.finished = some failed → .chainEnd none failed ∈ past) ?_ ?_ ?_) hs
  · intro hs
    cases hs
  · intro past s e events _ ih _ hs
    rw [handle_eq] at hs
    rcases Option.or_eq_some_iff.mp hs with hv | ⟨-, hs⟩
    · cases e with
      | chainEnd owner f =>
        cases owner with
        | none =>
          obtain rfl := Option.some.inj hv
          exact List.mem_append_right _ List.mem_cons_self
        | some o => cases hv
      | _ => cases hv
    · exact List.mem_append_left _ (ih hs)
  · intro past s f broken _ ih _
    exact ih

/-! ### Balance under a job -/

/-- The job under an owner that an event starts. -/
def Event.begun? (p : Plan) (o : JobId) : Event → Option JobId
  | .start c => if p.parent? c = some o then some c else none
  | .workDone _ _ | .subtreeDone _ _ | .chainEnd _ _ => none

/-- The job under an owner under which, as an event tells, all is done and went well. -/
def Event.settled? (p : Plan) (o : JobId) : Event → Option JobId
  | .subtreeDone c false => if p.parent? c = some o then some c else none
  | .start _ | .workDone _ _ | .subtreeDone _ true | .chainEnd _ _ => none

theorem begun?_eq_some_iff {e : Event} : e.begun? p o = some id ↔
    e = .start id ∧ p.parent? id = some o := by
  cases e with
  | start c =>
    by_cases hc : p.parent? c = some o
    · simp only [Event.begun?, if_pos hc, Option.some.injEq, Event.start.injEq]
      exact ⟨fun he => ⟨he, he ▸ hc⟩, And.left⟩
    · simp only [Event.begun?, if_neg hc, Event.start.injEq]
      exact ⟨fun he => absurd he (by simp), fun h => absurd (h.1 ▸ h.2) hc⟩
  | _ => simp [Event.begun?]

theorem settled?_eq_some_iff {e : Event} : e.settled? p o = some id ↔
    e = .subtreeDone id false ∧ p.parent? id = some o := by
  cases e with
  | subtreeDone c failed =>
    cases failed with
    | true => simp [Event.settled?]
    | false =>
      by_cases hc : p.parent? c = some o
      · simp only [Event.settled?, if_pos hc, Option.some.injEq, Event.subtreeDone.injEq,
          and_true]
        exact ⟨fun he => ⟨he, he ▸ hc⟩, And.left⟩
      · simp only [Event.settled?, if_neg hc, Event.subtreeDone.injEq, and_true]
        exact ⟨nofun, fun h => absurd (h.1 ▸ h.2) hc⟩
  | _ => simp [Event.settled?]

theorem count_filterMap_begun? (past : List Event) (h : p.parent? id = some o) :
    (past.filterMap (Event.begun? p o)).count id = past.count (.start id) := by
  rw [List.count_filterMap, List.count]
  refine List.countP_congr fun e _ => ?_
  rw [beq_iff_eq, beq_iff_eq, begun?_eq_some_iff]
  exact ⟨And.left, fun he => ⟨he, h⟩⟩

theorem count_filterMap_settled? (past : List Event) (h : p.parent? id = some o) :
    (past.filterMap (Event.settled? p o)).count id = past.count (.subtreeDone id false) := by
  rw [List.count_filterMap, List.count]
  refine List.countP_congr fun e _ => ?_
  rw [beq_iff_eq, beq_iff_eq, settled?_eq_some_iff]
  exact ⟨And.left, fun he => ⟨he, h⟩⟩

theorem begun?_branches (hp : p.Nested) (c o : JobId) :
    ((p.branches c).map Event.start).filterMap (Event.begun? p o) =
      if c = o then p.branches o else [] := by
  rw [List.filterMap_map]
  split
  · rename_i hc
    subst hc
    have hsome : ∀ b ∈ p.branches c, (Event.begun? p c ∘ Event.start) b = some b := fun b hb =>
      begun?_eq_some_iff.mpr ⟨rfl, hp.branch c b hb⟩
    rw [List.filterMap_congr hsome, List.filterMap_some]
  · rename_i hc
    rw [List.filterMap_eq_nil_iff]
    intro b hb
    have hpar : p.parent? b ≠ some o := by
      rw [hp.branch c b hb]
      exact fun he => hc (Option.some.inj he)
    rw [Function.comp_apply, Event.begun?, if_neg hpar]

/-- Each good end of a job goes to its successor or to its owner, and all other starts under a job
are those of its branches. -/
theorem balance_of_event (hp : p.Nested) (e : Event) (o : JobId) :
    ((e.replies p).filterMap (Event.begun? p o)).length +
        (e.replies p).count (.chainEnd (some o) false) =
      (p.branches o).length * [e].count (.workDone o false) +
        ([e].filterMap (Event.settled? p o)).length := by
  cases e with
  | start c =>
    cases hs : p.isStructural c <;> simp [hs, List.filterMap_cons, Event.begun?, Event.settled?]
  | workDone c failed =>
    cases failed with
    | true => simp [List.filterMap_cons, Event.begun?, Event.settled?]
    | false =>
      by_cases hb : p.branches c = []
      · by_cases hc : c = o
        · subst hc
          simp [hb, List.filterMap_cons, Event.begun?, Event.settled?]
        · simp [hb, hc, List.filterMap_cons, Event.begun?, Event.settled?]
      · have hnone : ((p.branches c).map Event.start).count (.chainEnd (some o) false) = 0 := by
          simp [List.count_eq_zero]
        rw [Event.replies, if_neg hb, begun?_branches hp, hnone]
        by_cases hc : c = o <;> simp [hc, List.filterMap_cons, Event.settled?]
  | subtreeDone c failed =>
    cases failed with
    | true => simp [List.filterMap_cons, Event.begun?, Event.settled?]
    | false =>
      cases hn : p.next? c with
      | none =>
        by_cases hc : p.parent? c = some o <;>
          simp [hn, hc, List.filterMap_cons, Event.begun?, Event.settled?]
      | some n =>
        have hpar := (hp.next c n hn).2
        by_cases hc : p.parent? c = some o <;>
          simp [hn, hc, hpar, Event.begun?, Event.settled?]
  | chainEnd owner failed => simp [List.filterMap_cons, Event.settled?]

theorem filterMap_closes (s : State) (e : Event) (o : JobId) :
    (s.closes e).filterMap (Event.begun? p o) = [] := by
  rw [List.filterMap_eq_nil_iff]
  intro k hk
  cases hb : k.begun? p o with
  | none => rfl
  | some c =>
    obtain ⟨rfl, -⟩ := begun?_eq_some_iff.mp hb
    exact absurd hk (List.count_eq_zero.mp (count_closes_of_isLink rfl))

/-- What starts under a job is what its branches ask for and what follows good ends there. -/
theorem History.balance (hp : p.Nested) (h : History p limit past s) (o : JobId) :
    ((posted past s).filterMap (Event.begun? p o)).length +
        (posted past s).count (.chainEnd (some o) false) =
      (p.branches o).length * past.count (.workDone o false) +
        (past.filterMap (Event.settled? p o)).length := by
  refine h.induction (motive := fun past s =>
    ((posted past s).filterMap (Event.begun? p o)).length +
        (posted past s).count (.chainEnd (some o) false) =
      (p.branches o).length * past.count (.workDone o false) +
        (past.filterMap (Event.settled? p o)).length) ?_ ?_ ?_
  · have hroot : p.parent? p.root = none := (hp.parent_none p.root hp.root).mpr rfl
    simp [posted, Run.init, Event.begun?, hroot]
  · intro past s e events _ ih he
    have hnew := balance_of_event hp e o
    have hcloses : (s.closes e).count (.chainEnd (some o) false) = 0 := count_closes_of_isLink rfl
    have hpast : (past ++ [e]).count (.workDone o false) =
      past.count (.workDone o false) + [e].count (.workDone o false) := List.count_append
    rw [posted_handle he, List.filterMap_append, List.filterMap_append, filterMap_closes,
      List.append_nil, List.length_append, List.count_append, List.count_append, hcloses, hpast,
      Nat.mul_add, List.filterMap_append, List.length_append]
    omega
  · intro past s f failed _ ih _
    rw [posted_finish, List.filterMap_append, List.count_append]
    simpa [List.filterMap_cons, Event.begun?] using ih

/-! ### Runs that are over -/

/-- A job starts, its work goes well and then all under it does: no later one more often. -/
theorem History.settled_le (h : History p limit past s) (id : JobId) :
    past.count (.subtreeDone id false) ≤ past.count (.workDone id false) ∧
      past.count (.workDone id false) ≤ past.count (.start id) := by
  have hworks := h.works_le id
  have hclosings := h.closings_le id
  have hdone := count_le_posted past s (.workDone id false)
  have hsettled := count_le_posted past s (.subtreeDone id false)
  rw [works] at hworks
  rw [closings] at hclosings
  omega

theorem posted_of_over (hover : s.IsOver p limit) : posted past s = past := by
  rw [posted, (step?_eq_none hover.1).1, List.append_nil]

/-- If all under a job went well as often as the job was started, so it did under each job
there. -/
theorem History.settled_under (hp : p.Nested) (h : History p limit past s)
    (hover : s.IsOver p limit) (hpar : p.parent? id = some o)
    (ho : past.count (.subtreeDone o false) = past.count (.start o)) :
    past.count (.subtreeDone id false) = past.count (.start id) := by
  have hworked : past.count (.workDone o false) = past.count (.subtreeDone o false) := by
    have := h.settled_le o
    omega
  have hbalance := h.balance hp o
  have hended := h.ended_le o
  rw [posted_of_over hover] at hbalance hended
  rw [hworked] at hbalance
  have hlength : (past.filterMap (Event.begun? p o)).length ≤
      (past.filterMap (Event.settled? p o)).length := by
    omega
  have hsub : (past.filterMap (Event.settled? p o)).Subperm
      (past.filterMap (Event.begun? p o)) := by
    rw [List.subperm_ext_iff]
    intro c hc
    obtain ⟨e, -, he⟩ := List.mem_filterMap.mp hc
    have hcpar := (settled?_eq_some_iff.mp he).2
    rw [count_filterMap_settled? past hcpar, count_filterMap_begun? past hcpar]
    exact (h.settled_le c).1.trans (h.settled_le c).2
  have hperm := hsub.perm_of_length_le hlength
  rw [← count_filterMap_settled? past hpar, ← count_filterMap_begun? past hpar]
  exact hperm.count_eq id

theorem chainEnd_mem_replies_iff {e : Event} {owner : Option JobId} :
    .chainEnd owner false ∈ e.replies p ↔
      ∃ c, e = .subtreeDone c false ∧ p.next? c = none ∧ p.parent? c = owner := by
  cases e with
  | start k => cases hs : p.isStructural k <;> simp [hs]
  | workDone k failed =>
    cases failed with
    | true => simp
    | false => by_cases hb : p.branches k = [] <;> simp [hb]
  | subtreeDone k failed => cases hn : p.next? k <;> cases failed <;> simp [hn, eq_comm]
  | chainEnd owner failed => simp

/-- When the chain of the root ends well, all under the root is done and went well. -/
theorem History.settled_root (hp : p.Nested) (h : History p limit past s)
    (hs : s.finished = some false) : .subtreeDone p.root false ∈ past := by
  have hend := List.count_pos_iff.mpr (List.mem_append_left s.events (h.of_finished hs))
  rw [← posted, h.links rfl, Nat.add_comm] at hend
  have hreply : .chainEnd none false ∈ past.flatMap (Event.replies p) := by
    refine List.count_pos_iff.mp ?_
    simpa using hend
  obtain ⟨e, he, hreply⟩ := List.mem_flatMap.mp hreply
  obtain ⟨c, rfl, -, hpar⟩ := chainEnd_mem_replies_iff.mp hreply
  have hstart := h.start_of_subtreeDone (List.mem_append_left _ he)
  have hid := hp.mem_ids (h.reached c (List.mem_append_left _ hstart))
  rw [(hp.parent_none c hid).mp hpar] at he
  exact he

/-- In a run that went well, all under each job was done, and went well, as often as the job was
started. -/
theorem History.settled (hp : p.Nested) (h : History p limit past s) (hover : s.IsOver p limit)
    (hs : s.finished = some false) (id : JobId) :
    past.count (.subtreeDone id false) = past.count (.start id) := by
  -- Down from the root, each job hands what holds of it to the jobs under it.
  induction id using Nat.strongRecOn with
  | ind id ih =>
    by_cases hid : id ∈ p.ids
    · cases hpar : p.parent? id with
      | some o => exact h.settled_under hp hover hpar (ih o (hp.parent id o hpar).2)
      | none =>
        obtain rfl := (hp.parent_none id hid).mp hpar
        have hone := h.count_start_root fun o _ => hp.root_not_linked o
        rw [posted_of_over hover] at hone
        have hpos := List.count_pos_iff.mpr (h.settled_root hp hs)
        have hle := h.settled_le p.root
        omega
    · have hnone : past.count (.start id) = 0 := by
        rw [List.count_eq_zero]
        exact fun hstart => hid (hp.mem_ids (h.reached id (List.mem_append_left _ hstart)))
      have hle := h.settled_le id
      omega

/-- A run that went well has started everything that links lead to. -/
theorem History.start_mem (hp : p.Nested) (h : History p limit past s) (hover : s.IsOver p limit)
    (hs : s.finished = some false) (hid : p.Reached id) : .start id ∈ past := by
  have hposted : posted past s = past := posted_of_over hover
  induction hid with
  | root =>
    have hone := h.count_start_root fun o _ => hp.root_not_linked o
    rw [hposted] at hone
    exact List.count_pos_iff.mp (by omega)
  | @link o c _ hc ih =>
    have hsettled := h.settled hp hover hs o
    have hle := h.settled_le o
    have hpos := List.count_pos_iff.mpr ih
    have hreply : ∃ e ∈ past, .start c ∈ e.replies p := by
      rcases Plan.mem_links_iff.mp hc with hb | hn
      · exact ⟨.workDone o false, List.count_pos_iff.mp (by omega),
          start_mem_replies_iff.mpr ⟨o, .inl ⟨rfl, hb⟩⟩⟩
      · exact ⟨.subtreeDone o false, List.count_pos_iff.mp (by omega),
          start_mem_replies_iff.mpr ⟨o, .inr ⟨rfl, hn⟩⟩⟩
    obtain ⟨e, he, hstart⟩ := hreply
    have hflat := List.count_pos_iff.mpr (List.mem_flatMap.mpr ⟨e, he, hstart⟩)
    have hlinks := h.links (k := .start c) rfl
    rw [hposted] at hlinks
    exact List.count_pos_iff.mp (by omega)

end Run

end Workflow
