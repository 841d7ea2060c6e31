import Mathlib.Data.List.Sort
import Workflow.Proofs.Plan.Linked

/-!
What is under a job of any plan whose jobs stand under their own ids. Parents come before their
jobs, so going down from a job ends, and a job has one parent, so no two ways down meet.
-/

namespace Workflow

namespace Plan

/-- A job stands directly under another. -/
abbrev Under (p : Plan) (c o : JobId) : Prop := p.parent? c = some o

/-- Going from a job to its parent again and again comes to `o`, or is there from the beginning. -/
abbrev Within (p : Plan) (k o : JobId) : Prop := Relation.ReflTransGen p.Under k o

variable {p : Plan} {id k a b : JobId} {levels : Nat}

theorem mem_childIds_iff (ht : p.table.Owned) : k ∈ p.childIds id ↔ p.Under k id := by
  rw [childIds, List.mem_map, Under, parent?]
  constructor
  · intro h
    obtain ⟨j, hj, rfl⟩ := h
    obtain ⟨hj, ho⟩ := List.mem_filter.mp hj
    rw [get?, ht.get? hj, Option.bind_some]
    simpa using ho
  · intro h
    obtain ⟨j, hj, ho⟩ := Option.bind_eq_some_iff.mp h
    refine ⟨j, List.mem_filter.mpr ⟨Table.mem_jobs_iff.mpr ⟨k, hj⟩, by simpa using ho⟩, ?_⟩
    exact ht k j hj

theorem mem_descend (ht : p.table.Owned) (h : k ∈ p.descend levels id) : p.Within k id := by
  induction levels generalizing id with
  | zero =>
    obtain rfl := List.mem_singleton.mp h
    exact .refl
  | succ levels ih =>
    rcases List.mem_cons.mp h with rfl | h
    · exact .refl
    · obtain ⟨c, hc, hk⟩ := List.mem_flatMap.mp h
      exact (ih hk).tail ((mem_childIds_iff ht).mp hc)

theorem mem_subtree (ht : p.table.Owned) (h : k ∈ p.subtree id) : p.Within k id := by
  rw [subtree] at h
  split at h
  · exact mem_descend ht (List.mem_mergeSort.mp h)
  · cases h

/-! ### Ways up -/

namespace Nested

theorem le_of_within (hp : p.Nested) (h : p.Within k id) : id ≤ k := by
  induction h with
  | refl => exact Nat.le_refl k
  | tail _ ho ih => exact (Nat.le_of_lt (hp.parent _ _ ho).2).trans ih

theorem mem_ids_of_within (hid : id ∈ p.ids) (h : p.Within k id) : k ∈ p.ids := by
  rcases Relation.ReflTransGen.cases_head h with rfl | ⟨o, ho, -⟩
  · exact hid
  · exact mem_ids_of_parent? ho

/-- Every way up comes to the root. -/
theorem within_root (hp : p.Nested) (hk : k ∈ p.ids) : p.Within k p.root := by
  induction k using Nat.strongRecOn with
  | ind k ih =>
    cases hpar : p.parent? k with
    | none =>
      rw [(hp.parent_none k hk).mp hpar]
    | some o =>
      obtain ⟨ho, hlt⟩ := hp.parent k o hpar
      exact .head hpar (ih o hlt ho)

/-- Of two jobs on one way up, one is within the other. -/
theorem within_or_within (ha : p.Within k a) (hb : p.Within k b) :
    p.Within a b ∨ p.Within b a :=
  Relation.ReflTransGen.total_of_right_unique
    (fun _ _ _ ho ho' => Option.some.inj (ho.symm.trans ho')) ha hb

/-- Two jobs directly under one job have nothing in common. -/
theorem eq_of_within (hp : p.Nested) {c c' o : JobId} (hc : p.Under c o) (hc' : p.Under c' o)
    (h : p.Within c c') : c = c' := by
  rcases Relation.ReflTransGen.cases_head h with rfl | ⟨o', ho', hup⟩
  · rfl
  · -- The way up from `c` goes on at `o`, which comes before `c'`.
    obtain rfl := Option.some.inj (hc.symm.trans ho')
    have hle := hp.le_of_within hup
    have hlt := (hp.parent _ _ hc').2
    exact absurd hlt (Nat.not_lt.mpr hle)

end Nested

/-! ### Going down -/

theorem mem_descend_of_within (hp : p.Nested) (ht : p.table.Owned) (h : p.Within k id)
    (hlevels : k ≤ id + levels) : k ∈ p.descend levels id := by
  induction levels generalizing id with
  | zero =>
    obtain rfl : k = id := Nat.le_antisymm hlevels (hp.le_of_within h)
    exact List.mem_singleton_self k
  | succ levels ih =>
    rcases Relation.ReflTransGen.cases_tail h with rfl | ⟨c, hc, hpar⟩
    · exact List.mem_cons_self
    · have hlt := (hp.parent c id hpar).2
      refine List.mem_cons_of_mem _ (List.mem_flatMap.mpr ⟨c, (mem_childIds_iff ht).mpr hpar, ?_⟩)
      exact ih hc (by lia)

theorem childIds_nodup (ht : p.table.Owned) (id : JobId) : (p.childIds id).Nodup := by
  have hids : (p.table.jobs.map Job.id).Nodup := by
    rw [ht.map_id]
    exact p.table.keys_nodup
  exact hids.sublist (List.filter_sublist.map Job.id)

/-- Going down comes to no job twice. -/
theorem descend_nodup (hp : p.Nested) (ht : p.table.Owned) (levels : Nat) (id : JobId) :
    (p.descend levels id).Nodup := by
  induction levels generalizing id with
  | zero => exact List.nodup_singleton id
  | succ levels ih =>
    rw [descend, List.nodup_cons, List.nodup_flatMap]
    refine ⟨fun hid => ?_, fun c _ => ih c, ?_⟩
    · obtain ⟨c, hc, hmem⟩ := List.mem_flatMap.mp hid
      have hlt := (hp.parent c id ((mem_childIds_iff ht).mp hc)).2
      exact absurd hlt (Nat.not_lt.mpr (hp.le_of_within (mem_descend ht hmem)))
    · refine (childIds_nodup ht id).imp_of_mem fun hc hc' hne k hk hk' => hne ?_
      rw [mem_childIds_iff ht] at hc hc'
      rcases Nested.within_or_within (mem_descend ht hk) (mem_descend ht hk') with h | h
      · exact hp.eq_of_within hc hc' h
      · exact (hp.eq_of_within hc' hc h).symm

/-! ### Subtrees -/

theorem subtree_of_not_mem (hid : id ∉ p.ids) : p.subtree id = [] := by
  rw [subtree, if_neg (mt get?_isSome.mp hid)]

theorem subtree_of_mem (hid : id ∈ p.ids) : p.subtree id = (p.descend p.size id).mergeSort := by
  rw [subtree, if_pos (get?_isSome.mpr hid)]

theorem mem_subtree_iff (ht : p.table.Owned) (hid : id ∈ p.ids) :
    k ∈ p.subtree id ↔ p.Within k id := by
  refine ⟨mem_subtree ht, fun h => ?_⟩
  have hsize := (mem_ids_iff.mp (Nested.mem_ids_of_within hid h)).2
  rw [subtree_of_mem hid, List.mem_mergeSort]
  exact mem_descend_of_within (nested_of_owned ht) ht h (hsize.trans (Nat.le_add_left _ id))

theorem subtree_pairwise (ht : p.table.Owned) (id : JobId) :
    (p.subtree id).Pairwise (· < ·) := by
  by_cases hid : id ∈ p.ids
  · have hnodup := descend_nodup (nested_of_owned ht) ht p.size id
    have hperm := List.mergeSort_perm (p.descend p.size id) (fun a b => decide (a ≤ b))
    rw [subtree_of_mem hid]
    refine (List.pairwise_mergeSort' (· ≤ ·) _).imp₂ (fun _ _ => Nat.lt_of_le_of_ne) ?_
    exact hperm.nodup_iff.mpr hnodup
  · rw [subtree_of_not_mem hid]
    exact List.Pairwise.nil

theorem subtree_root (ht : p.table.Owned) : p.subtree p.root = p.ids := by
  have hp := nested_of_owned ht
  refine (subtree_pairwise ht p.root).eq_of_mem_iff p.table.keys_ascend fun k => ?_
  rw [mem_subtree_iff ht hp.root]
  exact ⟨Nested.mem_ids_of_within hp.root, hp.within_root⟩

theorem subtree_subset (ht : p.table.Owned) (hb : b ∈ p.ids) (h : p.Within a b) :
    p.subtree a ⊆ p.subtree b := by
  intro k hk
  exact (mem_subtree_iff ht hb).mpr ((mem_subtree ht hk).trans h)

/-- Going further down than there are jobs finds no more jobs. -/
theorem descend_of_size_le (ht : p.table.Owned) (hid : id ∈ p.ids) (hlevels : p.size ≤ levels) :
    (p.descend levels id).Perm (p.subtree id) := by
  have hp := nested_of_owned ht
  have hnodup : (p.subtree id).Nodup := (subtree_pairwise ht id).imp Nat.ne_of_lt
  refine (List.perm_ext_iff_of_nodup (descend_nodup hp ht levels id) hnodup).mpr fun k => ?_
  rw [mem_subtree_iff ht hid]
  refine ⟨mem_descend ht, fun h => mem_descend_of_within hp ht h ?_⟩
  have hsize := (mem_ids_iff.mp (Nested.mem_ids_of_within hid h)).2
  lia

end Plan

/-- The subtree of a job lists, in the order of their ids, exactly the jobs from which going from
parent to parent comes to it, and however far down one goes there are no others. So the subtree of
the root has all jobs, and two subtrees have nothing in common or one is part of the other. -/
theorem subtree_exact {p : Plan} (ht : p.table.Owned) :
    (∀ id, id ∉ p.ids → p.subtree id = []) ∧
    (∀ id ∈ p.ids, (p.subtree id).Pairwise (· < ·) ∧ (∀ k, k ∈ p.subtree id ↔ p.Within k id) ∧
      ∀ levels, p.size ≤ levels → (p.descend levels id).Perm (p.subtree id)) ∧
    p.subtree p.root = p.ids ∧
    ∀ a ∈ p.ids, ∀ b ∈ p.ids, (p.subtree a).Disjoint (p.subtree b) ∨
      p.subtree a ⊆ p.subtree b ∨ p.subtree b ⊆ p.subtree a := by
  refine ⟨fun id => Plan.subtree_of_not_mem, fun id hid => ⟨Plan.subtree_pairwise ht id,
    fun k => Plan.mem_subtree_iff ht hid, fun levels => Plan.descend_of_size_le ht hid⟩,
    Plan.subtree_root ht, fun a ha b hb => ?_⟩
  by_cases hcommon : ∃ k, k ∈ p.subtree a ∧ k ∈ p.subtree b
  · obtain ⟨k, hka, hkb⟩ := hcommon
    have hup := Plan.Nested.within_or_within (Plan.mem_subtree ht hka) (Plan.mem_subtree ht hkb)
    rcases hup with h | h
    · exact .inr (.inl (Plan.subtree_subset ht hb h))
    · exact .inr (.inr (Plan.subtree_subset ht ha h))
  · exact .inl fun k hka hkb => hcommon ⟨k, hka, hkb⟩

/-- Jobs under one another that no job lists. -/
def loosePlan : Plan where
  table := Table.ofJobs [⟨1, "Notify", [], [], none, none, none⟩,
    ⟨2, "Notify", [], [], some 1, none, some 4⟩, ⟨3, "Notify", [], [], some 2, none, none⟩,
    ⟨4, "Notify", [], [], some 1, none, none⟩]
  root := 1
  accepted := by decide

theorem loosePlan_subtree : loosePlan.table.Owned ∧ loosePlan.subtree 5 = [] ∧
    loosePlan.subtree 1 = [1, 2, 3, 4] ∧ 3 ∈ loosePlan.subtree 2 ∧ 4 ∉ loosePlan.subtree 2 := by
  have howned : loosePlan.table.Owned := Table.owned_ofJobs _
  obtain ⟨habsent, hpresent, hroot, -⟩ := subtree_exact howned
  have hsecond := (hpresent 2 (by decide)).2.1
  refine ⟨howned, habsent 5 (by decide), hroot, (hsecond 3).mpr (.single rfl), fun h => ?_⟩
  -- The way up from 4 has passed 2 when it is at 1.
  rcases Relation.ReflTransGen.cases_head ((hsecond 4).mp h) with he | ⟨o, ho, hup⟩
  · cases he
  · obtain rfl : 1 = o := Option.some.inj ho
    exact absurd ((Plan.nested_of_owned howned).le_of_within hup) (by decide)

end Workflow
