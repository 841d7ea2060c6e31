import Mathlib.Algebra.Order.BigOperators.Group.List
import Mathlib.Algebra.Order.Ring.Nat
import Workflow.Proofs.Run.Stage

/-!
Sums over the jobs of a plan: of events that are waiting, of branches that are awaited, and of the
ranks of the stages, which grow with every advance.
-/

namespace Workflow

namespace Run

/-- The sum of what `g` tells of each job and its stage. -/
def total (p : Plan) (g : JobId → Stage → Nat) (st : JobId → Stage) : Nat :=
  (p.ids.map fun id => g id (st id)).sum

theorem ids_nodup (p : Plan) : p.ids.Nodup := p.table.keys_nodup

theorem sum_map_update {α : Type} {l : List JobId} {g : JobId → α → Nat} {st : JobId → α}
    {id : JobId} {x : α} (hl : l.Nodup) (hid : id ∈ l) :
    (l.map fun k => g k (Function.update st id x k)).sum + g id (st id) =
      (l.map fun k => g k (st k)).sum + g id x := by
  induction l with
  | nil => cases hid
  | cons a l ih =>
    obtain ⟨ha, hl⟩ := List.nodup_cons.mp hl
    simp only [List.map_cons, List.sum_cons]
    rcases List.mem_cons.mp hid with rfl | hid
    · have hrest : (l.map fun k => g k (Function.update st id x k)) =
          l.map fun k => g k (st k) := by
        refine List.map_congr_left fun k hk => ?_
        have hne : k ≠ id := fun he => ha (he ▸ hk)
        rw [Function.update_of_ne hne]
      rw [hrest, Function.update_self]
      omega
    · have hne : a ≠ id := fun he => ha (he ▸ hid)
      have := ih hl hid
      rw [Function.update_of_ne hne]
      omega

section Total

variable {p : Plan} {g : JobId → Stage → Nat} {st : JobId → Stage} {id : JobId} {x : Stage}

theorem total_update (g : JobId → Stage → Nat) (st : JobId → Stage) (x : Stage)
    (hid : id ∈ p.ids) :
    total p g (Function.update st id x) + g id (st id) = total p g st + g id x :=
  sum_map_update (ids_nodup p) hid

theorem total_update_of_eq (hid : id ∈ p.ids) (h : g id x = g id (st id)) :
    total p g (Function.update st id x) = total p g st := by
  have := total_update g st x hid
  omega

theorem exists_of_total_pos (h : 0 < total p g st) : ∃ id ∈ p.ids, 0 < g id (st id) := by
  obtain ⟨n, hn, hpos⟩ := List.sum_pos_iff_exists_pos_nat.mp h
  obtain ⟨id, hid, rfl⟩ := List.mem_map.mp hn
  exact ⟨id, hid, hpos⟩

theorem le_total (g : JobId → Stage → Nat) (st : JobId → Stage) (hid : id ∈ p.ids) :
    g id (st id) ≤ total p g st :=
  List.le_sum_of_mem (List.mem_map_of_mem hid)

theorem total_eq_zero (h : ∀ id ∈ p.ids, g id (st id) = 0) : total p g st = 0 := by
  by_contra hne
  obtain ⟨id, hid, hpos⟩ := exists_of_total_pos (Nat.pos_of_ne_zero hne)
  rw [h id hid] at hpos
  exact Nat.lt_irrefl 0 hpos

theorem total_le {bound : Nat} (h : ∀ id, g id (st id) ≤ bound) :
    total p g st ≤ p.size * bound := by
  have hlen : p.ids.length = p.size := by
    rw [Plan.ids, SortedMap.keys, List.length_map, Plan.size, SortedMap.size]
  have := List.sum_le_card_nsmul (p.ids.map fun id => g id (st id)) bound
    (by simpa using fun id _ => h id)
  simpa [total, hlen] using this

/-- A call adds what called jobs have more than idle ones. -/
theorem total_callAll {ids : List JobId} (g : JobId → Stage → Nat) (h : Fresh p st ids) :
    total p g (callAll ids st) + (ids.map fun k => g k .idle).sum =
      total p g st + (ids.map fun k => g k .called).sum := by
  induction ids with
  | nil => simp [callAll_nil]
  | cons a ids ih =>
    have ha : a ∉ ids := (List.nodup_cons.mp h.nodup).1
    have hstep := total_update g (callAll ids st) .called (h.mem a List.mem_cons_self)
    have hsame : callAll ids st a = .idle := by
      rw [callAll, if_neg ha, h.idle a List.mem_cons_self]
    have hrest := ih h.of_cons
    rw [callAll_cons, List.map_cons, List.sum_cons, List.map_cons, List.sum_cons]
    rw [hsame] at hstep
    omega

end Total

/-! ### Progress -/

/-- How far all jobs have come. -/
def progress (p : Plan) (st : JobId → Stage) : Nat := total p (fun _ x => x.rank) st

variable {p : Plan} {fails : JobId → Bool} {st st' : JobId → Stage}

theorem progress_le (p : Plan) (st : JobId → Stage) : progress p st ≤ p.size * 8 :=
  total_le fun id => (st id).rank_le

theorem progress_update_lt {id : JobId} {x : Stage} (hid : id ∈ p.ids)
    (h : (st id).rank < x.rank) : progress p st < progress p (Function.update st id x) := by
  have := total_update (fun _ x => x.rank) st x hid
  simp only [progress]
  omega

theorem progress_callAll {ids : List JobId} (h : Fresh p st ids) :
    progress p st ≤ progress p (callAll ids st) := by
  have hsum := total_callAll (fun _ x => x.rank) h
  have hzero : (ids.map fun _ => Stage.idle.rank).sum = 0 := by simp [Stage.rank]
  rw [hzero] at hsum
  simp only [progress]
  omega

/-- Every advance is progress. -/
theorem Advance.progress_lt (hp : p.Branching) (hc : Consistent p fails st)
    (h : Advance p fails st st') : progress p st < progress p st' := by
  have hmem : ∀ {id : JobId} {x : Stage}, st id = x → x ≠ .idle → id ∈ p.ids := fun hst hx =>
    hc.mem_ids (hst ▸ hx)
  have hcall : ∀ {id : JobId} {ids : List JobId} {x y : Stage}, st id = y → y ≠ .idle →
      y.rank < x.rank → Fresh p st ids →
      progress p st < progress p (Function.update (callAll ids st) id x) := by
    intro id ids x y hst hy hlt hids
    refine (progress_callAll hids).trans_lt (progress_update_lt (hmem hst hy) ?_)
    rw [hids.callAll_of_begun (hst ▸ hy), hst]
    exact hlt
  cases h with
  | @start id hst =>
    refine progress_update_lt (hmem hst (by simp)) ?_
    rw [hst]
    split <;> simp [Stage.rank]
  | dispatch hst => exact progress_update_lt (hmem hst (by simp)) (by simp [hst, Stage.rank])
  | finish hst => exact progress_update_lt (hmem hst (by simp)) (by simp [hst, Stage.rank])
  | fail hst => exact progress_update_lt (hmem hst (by simp)) (by simp [hst, Stage.rank])
  | @branch id hst hb =>
    have hids := hc.fresh_branches hp (show (st id).phase.isOpen = false by rw [hst]; rfl)
    exact hcall hst (by simp) (by simp [Stage.rank]) hids
  | close hst => exact progress_update_lt (hmem hst (by simp)) (by simp [hst, Stage.rank])
  | @pass id n hst hn =>
    have hids := hc.fresh_next hp hn (by simp [hst])
    exact hcall hst (by simp) (by simp [Stage.rank]) hids
  | settle hst => exact progress_update_lt (hmem hst (by simp)) (by simp [hst, Stage.rank])
  | tell hst => exact progress_update_lt (hmem hst (by simp)) (by simp [hst, Stage.rank])
  | @tellLast id o e failed hst ho hlast hf =>
    have hne : o ≠ id := by
      have := (hp.parent id o ho).2
      lia
    have howner := hc.owner_waiting hst ho
    have htold : progress p st < progress p (Function.update st id (.told e)) :=
      progress_update_lt (hmem hst (by simp)) (by simp [hst, Stage.rank])
    refine htold.trans (progress_update_lt (hp.parent id o ho).1 ?_)
    rw [Function.update_of_ne hne, howner]
    simp [Stage.rank]

end Run

end Workflow
