import Workflow.Plan.Outline
import Workflow.Proofs.Data.Except
import Workflow.Proofs.Plan.Rank

/-!
The outline of a plan ends exactly where no links come round, whatever ids the jobs of its table
stand under. The rank of a job bounds how deep the outline goes from there, and once there is an
outline a higher bound changes nothing.
-/

namespace Workflow

namespace Plan

variable {p : Plan} {id k : JobId} {bound level : Nat} {lines : List OutlineLine}

theorem outlineFrom_of_get? {j : Job} (hj : p.get? id = some j) :
    p.outlineFrom (bound + 1) level id =
      ((p.branches id).mapM (p.outlineFrom bound (level + 1))).bind fun below =>
        (j.next.elim (some []) (p.outlineFrom bound level)).map fun after =>
          ⟨level, id, j.worker, j.values⟩ :: below.flatten ++ after := by
  rw [outlineFrom, hj]
  cases hn : j.next with
  | none => simp [hn]
  | some n => cases hafter : p.outlineFrom bound level n <;> simp [hn, hafter]

theorem outlineFrom_of_get?_none (h : p.get? id = none) :
    p.outlineFrom (bound + 1) level id = some [] := by
  rw [outlineFrom, h]

/-- There are lines from a job on if there are lines from all that it links to. -/
theorem isSome_outlineFrom_succ : (p.outlineFrom (bound + 1) level id).isSome = true ↔
    (∀ b ∈ p.branches id, (p.outlineFrom bound (level + 1) b).isSome = true) ∧
      ∀ n, p.next? id = some n → (p.outlineFrom bound level n).isSome = true := by
  cases hj : p.get? id with
  | none => simp [outlineFrom_of_get?_none hj, branches, next?, hj]
  | some j =>
    rw [outlineFrom_of_get? hj, ← Option.isSome_mapM, next?, hj, Option.bind_some]
    cases (p.branches id).mapM (p.outlineFrom bound (level + 1)) with
    | none => simp
    | some below => cases j.next <;> simp

theorem outlineFrom_succ (h : p.outlineFrom bound level id = some lines) :
    p.outlineFrom (bound + 1) level id = some lines := by
  induction bound generalizing level id lines with
  | zero => cases h
  | succ bound ih =>
    cases hj : p.get? id with
    | none => rw [outlineFrom_of_get?_none hj] at h ⊢; exact h
    | some j =>
      rw [outlineFrom_of_get? hj] at h ⊢
      simp only [Option.bind_eq_some_iff, Option.map_eq_some_iff] at h ⊢
      obtain ⟨below, hbelow, after, hafter, hlines⟩ := h
      refine ⟨below, Option.mapM_mono (fun _ _ => ih) hbelow, after, ?_, hlines⟩
      cases hn : j.next with
      | none => rwa [hn] at hafter
      | some n =>
        rw [hn] at hafter
        exact ih hafter

theorem outlineFrom_mono {bound' : Nat} (hle : bound ≤ bound')
    (h : p.outlineFrom bound level id = some lines) :
    p.outlineFrom bound' level id = some lines := by
  induction hle with
  | refl => exact h
  | step _ ih => exact outlineFrom_succ ih

/-- Where no links come round, the outline goes no deeper than the rank of its first job. -/
theorem isSome_outlineFrom (hacyclic : ∀ k, Relation.ReflTransGen p.Links id k →
    ¬ Relation.TransGen p.Links k k) (hrank : p.rank id < bound) :
    (p.outlineFrom bound level id).isSome = true := by
  induction bound generalizing level id with
  | zero => exact absurd hrank (Nat.not_lt_zero _)
  | succ bound ih =>
    have hlink : ∀ b level, p.Links id b → (p.outlineFrom bound level b).isSome = true := by
      intro b level hb
      have hlt := rank_lt_of_acyclic (hacyclic id .refl) hb
      exact ih (fun k hk => hacyclic k (hk.head hb)) (by omega)
    rw [isSome_outlineFrom_succ]
    exact ⟨fun b hb => hlink b _ (mem_links_iff.mpr (.inl hb)),
      fun n hn => hlink n _ (mem_links_iff.mpr (.inr hn))⟩

/-- What leads into links that come round has no outline. -/
theorem outlineFrom_of_cycle (hcycle : Relation.TransGen p.Links k k)
    (h : Relation.ReflTransGen p.Links id k) : p.outlineFrom bound level id = none := by
  induction bound generalizing level id with
  | zero => rfl
  | succ bound ih =>
    obtain ⟨b, hb, hlead⟩ := Relation.TransGen.head'_iff.mp (hcycle.trans_right h)
    rw [← Option.not_isSome_iff_eq_none, isSome_outlineFrom_succ]
    intro hsome
    obtain ⟨hbranches, hnext⟩ := hsome
    rcases mem_links_iff.mp hb with hb | hn
    · have := hbranches b hb
      rw [ih hlead] at this
      cases this
    · have := hnext b hn
      rw [ih hlead] at this
      cases this

/-- A plan has an outline exactly when no links that the root leads to come round. -/
theorem isSome_outline? : p.outline?.isSome = true ↔
    ∀ k, Relation.ReflTransGen p.Links p.root k → ¬ Relation.TransGen p.Links k k := by
  constructor
  · intro h k hk hcycle
    rw [outline?, outlineFrom_of_cycle hcycle hk] at h
    cases h
  · intro h
    exact isSome_outlineFrom h (Nat.lt_succ_of_le (p.rank_le p.root))

theorem outline?_of_owned (ht : p.table.Owned) : ∃ lines, p.outline? = some lines :=
  Option.isSome_iff_exists.mp (isSome_outline?.mpr fun k _ => links_acyclic ht k)

end Plan

end Workflow
