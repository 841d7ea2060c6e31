import Mathlib.Data.Finset.Card
import Workflow.Proofs.Plan.Linked

/-!
Links end. Going down to a branch raises the parent of where one stands and going on to a follower
keeps it, so a way of links that comes back to where it began has followers only, and the check
refuses those. The number of jobs that links lead to from a job is its rank, and falls with every
link.
-/

namespace Workflow

namespace Plan

variable {p : Plan} {a b id : JobId}

/-- A link leads from one job to another. -/
def Links (p : Plan) (a b : JobId) : Prop := b ∈ p.links a

/-- The parent of a job as a number, 0 where there is none. -/
def above (p : Plan) (id : JobId) : Nat := (p.parent? id).getD 0

theorem Nested.above_lt (hp : p.Nested) (hid : id ∈ p.ids) : p.above id < id := by
  rw [above]
  cases hpar : p.parent? id with
  | none => exact (mem_ids_iff.mp hid).1
  | some o => exact (hp.parent id o hpar).2

theorem mem_ids_of_link (h : p.Links a b) : a ∈ p.ids := by
  rcases mem_links_iff.mp h with hb | hn
  · cases hj : p.get? a with
    | none => simp [branches, hj] at hb
    | some j => exact mem_ids_of_get? hj
  · exact mem_ids_of_next? hn

theorem Nested.above_branch (hp : p.Nested) (h : b ∈ p.branches a) : p.above a < p.above b := by
  have hpar : p.above b = a := by rw [above, hp.branch a b h, Option.getD_some]
  rw [hpar]
  exact hp.above_lt (mem_ids_of_link (mem_links_iff.mpr (.inl h)))

theorem Nested.above_next (hp : p.Nested) (h : p.next? a = some b) : p.above b = p.above a := by
  rw [above, (hp.next a b h).2, above]

/-- A way of links that keeps the parent is a chain of followers. -/
theorem Nested.follows_of_above (hp : p.Nested) (h : Relation.TransGen p.Links a b) :
    p.above a ≤ p.above b ∧
      (p.above a = p.above b → Relation.TransGen p.table.Follows a b) := by
  induction h with
  | @single b hab =>
    rcases mem_links_iff.mp hab with hb | hn
    · have hlt := hp.above_branch hb
      exact ⟨hlt.le, fun he => absurd he hlt.ne⟩
    · exact ⟨(hp.above_next hn).ge, fun _ => .single hn⟩
  | @tail b c _ hbc ih =>
    obtain ⟨hle, hchain⟩ := ih
    rcases mem_links_iff.mp hbc with hb | hn
    · have hlt := hle.trans_lt (hp.above_branch hb)
      exact ⟨hlt.le, fun he => absurd he hlt.ne⟩
    · have hsame := hp.above_next hn
      exact ⟨hsame ▸ hle, fun he => (hchain (he.trans hsame)).tail hn⟩

/-- No links lead from a job back to it. -/
theorem links_acyclic (ht : p.table.Owned) (id : JobId) : ¬ Relation.TransGen p.Links id id := by
  intro h
  have hsound := (checkTable_eq_ok_iff ht).mp p.accepted
  exact hsound.acyclic id (((nested_of_owned ht).follows_of_above h).2 rfl)

open Classical in
/-- The number of jobs that links lead to from a job, itself among them. -/
noncomputable def rank (p : Plan) (id : JobId) : Nat :=
  (p.ids.toFinset.filter fun k => Relation.ReflTransGen p.Links id k).card

theorem rank_le (p : Plan) (id : JobId) : p.rank id ≤ p.size := by
  classical
  have hlen : p.ids.length = p.size := by
    rw [ids, SortedMap.keys, List.length_map, size, SortedMap.size]
  exact (Finset.card_filter_le _ _).trans (hlen ▸ p.ids.toFinset_card_le)

/-- A link leads to a job of lower rank, unless links lead back from there. -/
theorem rank_lt_of_acyclic (ha : ¬ Relation.TransGen p.Links a a) (h : p.Links a b) :
    p.rank b < p.rank a := by
  classical
  refine Finset.card_lt_card (Finset.ssubset_iff_of_subset ?_ |>.mpr ⟨a, ?_, ?_⟩)
  · intro k hk
    obtain ⟨hid, hlead⟩ := Finset.mem_filter.mp hk
    exact Finset.mem_filter.mpr ⟨hid, hlead.head h⟩
  · exact Finset.mem_filter.mpr ⟨List.mem_toFinset.mpr (mem_ids_of_link h), .refl⟩
  · intro hback
    exact ha (.head' h (Finset.mem_filter.mp hback).2)

/-- Every link leads to a job of lower rank. -/
theorem rank_lt (ht : p.table.Owned) (h : p.Links a b) : p.rank b < p.rank a :=
  rank_lt_of_acyclic (links_acyclic ht a) h

end Plan

end Workflow
