import Workflow.Proofs.Plan.Linked
import Workflow.Proofs.Run.Ledger

/-!
How often a job is dispatched. Where no job that can be reached is linked twice, each is dispatched
once at most; the check alone does not ask for that.
-/

namespace Workflow

namespace Run

variable {p : Plan} {limit : Nat} {past : List Event} {s : State} {id : JobId}

/-! ### What is started is reached -/

theorem start_mem_replies_iff {e : Event} : .start id ∈ e.replies p ↔
    ∃ o, (e = .workDone o false ∧ id ∈ p.branches o) ∨
      (e = .subtreeDone o false ∧ p.next? o = some id) := by
  cases e with
  | start k => cases hs : p.isStructural k <;> simp [hs]
  | workDone k failed =>
    cases failed with
    | true => simp
    | false => by_cases hb : p.branches k = [] <;> simp [hb]
  | subtreeDone k failed => cases hn : p.next? k <;> cases failed <;> simp [hn, eq_comm]
  | chainEnd owner failed => simp

theorem mem_posted_of_events {e : Event} (he : e ∈ s.events) : e ∈ posted past s :=
  List.mem_append_right _ he

theorem History.start_of_workDone (h : History p limit past s) {failed : Bool}
    (hid : .workDone id failed ∈ posted past s) : .start id ∈ past := by
  have hworks := h.works_le id
  have hpos := List.count_pos_iff.mpr hid
  rw [works] at hworks
  refine List.count_pos_iff.mp ?_
  cases failed <;> omega

theorem History.workDone_of_subtreeDone (h : History p limit past s) {failed : Bool}
    (hid : .subtreeDone id failed ∈ posted past s) : .workDone id false ∈ past := by
  have hclosings := h.closings_le id
  have hpos := List.count_pos_iff.mpr hid
  rw [closings] at hclosings
  refine List.count_pos_iff.mp ?_
  cases failed <;> omega

theorem History.start_of_subtreeDone (h : History p limit past s) {failed : Bool}
    (hid : .subtreeDone id failed ∈ posted past s) : .start id ∈ past :=
  h.start_of_workDone (List.mem_append_left _ (h.workDone_of_subtreeDone hid))

theorem History.handled (h : History p limit past s) {e : Event} {events : List Event}
    (he : s.events = e :: events) :
    History p limit (past ++ [e]) ({ s with events := events }.handle p e) := by
  have hstep : s.step? p limit = some ({ s with events := events }.handle p e) := by
    rw [State.step?, he]
  simpa [he] using h.own hstep

/-- A start that is a reply is the start of a link of a job that was started. -/
theorem History.link_of_reply (h : History p limit past s) {e : Event} (he : e ∈ posted past s)
    (hid : .start id ∈ e.replies p) : ∃ o, .start o ∈ past ∧ id ∈ p.links o ∧
      ((e = .workDone o false ∧ id ∈ p.branches o) ∨
        (e = .subtreeDone o false ∧ p.next? o = some id)) := by
  obtain ⟨o, ho⟩ := start_mem_replies_iff.mp hid
  rcases ho with ⟨rfl, hb⟩ | ⟨rfl, hn⟩
  · exact ⟨o, h.start_of_workDone he, Plan.mem_links_iff.mpr (.inl hb), .inl ⟨rfl, hb⟩⟩
  · exact ⟨o, h.start_of_subtreeDone he, Plan.mem_links_iff.mpr (.inr hn), .inr ⟨rfl, hn⟩⟩

theorem History.reached (h : History p limit past s) :
    ∀ id, .start id ∈ posted past s → p.Reached id := by
  refine h.induction (motive := fun past s => ∀ id, .start id ∈ posted past s → p.Reached id)
    ?_ ?_ ?_
  · intro id hid
    obtain rfl : id = p.root := by simpa [posted, Run.init] using hid
    exact .root
  · intro past s e events h ih he id hid
    rw [posted_handle he] at hid
    rcases List.mem_append.mp hid with hid | hid
    · exact ih id hid
    · rcases List.mem_append.mp hid with hid | hid
      · have hmem : e ∈ posted past s := mem_posted_of_events (by rw [he]; exact List.mem_cons_self)
        obtain ⟨o, ho, hlink, -⟩ := h.link_of_reply hmem hid
        exact (ih o (List.mem_append_left _ ho)).link hlink
      · have hnone := List.count_eq_zero.mp (count_closes_of_isLink (s := s) (e := e)
          (k := .start id) rfl)
        exact absurd hid hnone
  · intro past s f failed _ ih _ id hid
    rw [posted_finish] at hid
    rcases List.mem_append.mp hid with hid | hid
    · exact ih id hid
    · simp at hid

/-- The root is only started in the beginning where no link leads back to it. -/
theorem History.count_start_root (hroot : ∀ o, p.Reached o → p.root ∉ p.links o)
    (h : History p limit past s) : (posted past s).count (.start p.root) = 1 := by
  have hnone : (past.flatMap (Event.replies p)).count (.start p.root) = 0 := by
    rw [List.count_eq_zero]
    intro hstart
    obtain ⟨e, he, hreply⟩ := List.mem_flatMap.mp hstart
    obtain ⟨o, ho, hlink, -⟩ := h.link_of_reply (List.mem_append_left _ he) hreply
    exact hroot o (h.reached o (List.mem_append_left _ ho)) hlink
  rw [h.links rfl, hnone, List.count_singleton_self]

/-! ### Linked once, started once -/

theorem count_flatMap_le_one {α β : Type} [DecidableEq α] [DecidableEq β] {l : List α}
    {f : α → List β} {b : β} (hone : ∀ a ∈ l, (f a).count b ≤ 1)
    (honly : ∀ a ∈ l, b ∈ f a → ∀ a' ∈ l, b ∈ f a' → a = a')
    (honce : ∀ a ∈ l, b ∈ f a → l.count a ≤ 1) : (l.flatMap f).count b ≤ 1 := by
  induction l with
  | nil => simp
  | cons a l ih =>
    rw [List.flatMap_cons, List.count_append]
    by_cases ha : b ∈ f a
    · have hrest : (l.flatMap f).count b = 0 := by
        rw [List.count_eq_zero]
        intro hb
        obtain ⟨a', ha', hb⟩ := List.mem_flatMap.mp hb
        obtain rfl := honly a List.mem_cons_self ha a' (List.mem_cons_of_mem _ ha') hb
        have hcount := honce a List.mem_cons_self ha
        have hpos := List.count_pos_iff.mpr ha'
        rw [List.count_cons_self] at hcount
        omega
      rw [hrest]
      exact hone a List.mem_cons_self
    · rw [List.count_eq_zero.mpr ha, Nat.zero_add]
      refine ih (fun a' ha' => hone a' (List.mem_cons_of_mem _ ha')) ?_ ?_
      · intro a' ha' hb a'' ha'' hb'
        exact honly a' (List.mem_cons_of_mem _ ha') hb a'' (List.mem_cons_of_mem _ ha'') hb'
      · intro a' ha' hb
        have hcount := honce a' (List.mem_cons_of_mem _ ha') hb
        rw [List.count_cons] at hcount
        omega

/-- The events that a run has handled bring a job to its start through one link only. -/
theorem History.eq_of_replies (hp : p.LinkedOnce) (h : History p limit past s) {e e' : Event}
    (he : e ∈ posted past s) (he' : e' ∈ posted past s) (hid : .start id ∈ e.replies p)
    (hid' : .start id ∈ e'.replies p) : e = e' := by
  obtain ⟨o, ho, hlink, hcase⟩ := h.link_of_reply he hid
  obtain ⟨o', ho', hlink', hcase'⟩ := h.link_of_reply he' hid'
  have hr : p.Reached o := h.reached o (List.mem_append_left _ ho)
  have hr' : p.Reached o' := h.reached o' (List.mem_append_left _ ho')
  obtain rfl := hp.owner o o' id hr hr' hlink hlink'
  have apart : id ∈ p.branches o → p.next? o ≠ some id := by
    intro hb hn
    have hdisjoint := (List.nodup_append.mp (hp.nodup o hr)).2.2
    exact hdisjoint id hb id (Option.mem_toList.mpr hn) rfl
  rcases hcase with ⟨rfl, hb⟩ | ⟨rfl, hn⟩ <;> rcases hcase' with ⟨rfl, hb'⟩ | ⟨rfl, hn'⟩
  · rfl
  · exact absurd hn' (apart hb)
  · exact absurd hn (apart hb')
  · rfl

/-- The replies to an event start a job once where the links of its own job lead there once. -/
theorem History.count_replies_le_one (hp : p.LinkedOnce) (h : History p limit past s) {e : Event}
    (he : e ∈ posted past s) (hid : .start id ∈ e.replies p) :
    (e.replies p).count (.start id) ≤ 1 := by
  obtain ⟨o, ho, -, hcase⟩ := h.link_of_reply he hid
  rcases hcase with ⟨rfl, hb⟩ | ⟨rfl, hn⟩
  · have hr : p.Reached o := h.reached o (List.mem_append_left _ ho)
    have hnodup : ((p.branches o).map Event.start).Nodup :=
      (List.nodup_append.mp (hp.nodup o hr)).1.map fun _ _ he => Event.start.inj he
    have hne : p.branches o ≠ [] := List.ne_nil_of_mem hb
    simpa [hne] using List.nodup_iff_count_le_one.mp hnodup (.start id)
  · simp [hn]

/-- Events that start a job are posted once where each job was started once. -/
theorem History.count_source_le_one (h : History p limit past s)
    (hone : ∀ o, (posted past s).count (.start o) ≤ 1) {e : Event} (he : e ∈ posted past s)
    (hid : .start id ∈ e.replies p) : (posted past s).count e ≤ 1 := by
  obtain ⟨o, -, -, hcase⟩ := h.link_of_reply he hid
  have hstarts := (count_le_posted past s (.start o)).trans (hone o)
  have hworks := h.works_le o
  rw [works] at hworks
  rcases hcase with ⟨rfl, -⟩ | ⟨rfl, -⟩
  · omega
  · have hclosings := h.closings_le o
    have hdone := count_le_posted past s (.workDone o false)
    rw [closings] at hclosings
    omega

/-- Where links lead to each job once, each job is started once at most. -/
theorem History.starts_le_one (hp : p.LinkedOnce) (h : History p limit past s) :
    ∀ id, (posted past s).count (.start id) ≤ 1 := by
  refine h.induction (motive := fun past s => ∀ id, (posted past s).count (.start id) ≤ 1)
    ?_ ?_ ?_
  · intro id
    simp [posted, Run.init, List.count_singleton]
    split <;> simp
  · intro past s e events h ih he id
    have hpast : (past ++ [e]).Sublist (posted past s) := by
      rw [posted, he]
      exact (List.singleton_sublist.mpr List.mem_cons_self).append_left past
    have hreplies : ((past ++ [e]).flatMap (Event.replies p)).count (.start id) ≤ 1 := by
      refine count_flatMap_le_one ?_ ?_ ?_
      · intro k hk
        by_cases hid : .start id ∈ k.replies p
        · exact h.count_replies_le_one hp (hpast.subset hk) hid
        · rw [List.count_eq_zero.mpr hid]
          exact Nat.zero_le _
      · intro k hk hid k' hk' hid'
        exact h.eq_of_replies hp (hpast.subset hk) (hpast.subset hk') hid hid'
      · intro k hk hid
        exact (hpast.count_le k).trans (h.count_source_le_one ih (hpast.subset hk) hid)
    by_cases hid : id = p.root
    · rw [hid, (h.handled he).count_start_root hp.root]
    · have hfirst : [Event.start p.root].count (.start id) = 0 := by
        simp [List.count_eq_zero, hid]
      rw [(h.handled he).links rfl, hfirst, Nat.zero_add]
      exact hreplies
  · intro past s f failed _ ih _ id
    rw [posted_finish, List.count_append]
    simpa using ih id

/-- Where no job that can be reached is linked twice, a run dispatches each job once at most,
however its units of work end. -/
theorem dispatched_once (hp : p.LinkedOnce) (h : History p limit past s) :
    s.dispatched.Nodup := by
  refine List.nodup_iff_count_le_one.mpr fun id => ?_
  have hdispatched := h.dispatched_le id
  have hstarts := (count_le_posted past s (.start id)).trans (h.starts_le_one hp id)
  omega

theorem notifyPlan_dispatched_once : ∃ past s, History notifyPlan 2 past s ∧
    s.dispatched = [3, 6, 4, 7] ∧ s.dispatched.Nodup := by
  have hrun : (runScript notifyPlan 2 ⟨[], []⟩).map (·.dispatched) = some [3, 6, 4, 7] := by
    decide +kernel
  obtain ⟨s, hs, hdispatched⟩ := Option.map_eq_some_iff.mp hrun
  obtain ⟨past, hpast⟩ := (history_of_runScript hs).1
  exact ⟨past, s, hpast, hdispatched,
    dispatched_once (Plan.linkedOnce_of_compile notifyJobs_compiled) hpast⟩

/-- A job that lists its one branch twice. -/
def repeatedPlan : Plan where
  table := Table.ofJobs [⟨1, "Notify", [], [], none, some [2, 2], none⟩,
    ⟨2, "Notify", [], [], some 1, none, none⟩]
  root := 1
  accepted := by decide

/-- The check lets a job through that lists a branch twice, and that branch is dispatched twice. -/
theorem repeatedPlan_dispatched_twice : repeatedPlan.table.Owned ∧
    ∃ past s, History repeatedPlan 2 past s ∧ s.IsOver repeatedPlan 2 ∧ s.succeeded = true ∧
      s.dispatched = [1, 2, 2] ∧ ¬ s.dispatched.Nodup := by
  have hrun : (runScript repeatedPlan 2 ⟨[], []⟩).map (fun s => (s.dispatched, s.succeeded)) =
      some ([1, 2, 2], true) := by
    decide +kernel
  obtain ⟨s, hs, hend⟩ := Option.map_eq_some_iff.mp hrun
  obtain ⟨hdispatched, hsucceeded⟩ := Prod.mk.inj hend
  obtain ⟨⟨past, hpast⟩, hover⟩ := history_of_runScript hs
  exact ⟨Table.owned_ofJobs _, past, s, hpast, hover, hsucceeded, hdispatched,
    by rw [hdispatched]; decide⟩

end Run

end Workflow
