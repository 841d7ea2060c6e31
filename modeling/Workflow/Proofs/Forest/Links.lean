import Mathlib.Data.List.Nodup
import Workflow.Proofs.Forest.Position
import Workflow.Proofs.Plan.Check

/-!
The links of a numbered tree: every job but the first has its parent before it, the branches of a
job stand under it, and what follows a job is the next tree beside it. So the table of a tree
whose keys and values pair up is one that can be run.
-/

namespace Workflow

namespace JobTree

/-- The places of a tree that is numbered as a table is. -/
def sites (t : JobTree) : List Place := t.places none none 1

variable {root : JobTree} {x y : Place}

theorem sites_ids (root : JobTree) : root.sites.map Place.id = List.range' 1 root.size :=
  root.places_ids none none 1

theorem sites_ascend (root : JobTree) : root.sites.Pairwise fun x y => x.id < y.id := by
  have h := List.pairwise_lt_range' (s := 1) (n := root.size)
  rw [← root.sites_ids] at h
  exact List.pairwise_map.mp h

theorem site_bounds (hx : x ∈ root.sites) : 1 ≤ x.id ∧ x.id ≤ root.size := by
  have hid : x.id ∈ List.range' 1 root.size := by
    rw [← root.sites_ids]
    exact List.mem_map_of_mem hx
  simp only [List.mem_range'_1] at hid
  lia

/-- The ids under a place are ids of the tree. -/
theorem site_end (hx : x ∈ root.sites) : x.id + x.tree.size ≤ root.size + 1 := by
  have hpos := x.tree.size_pos
  have hlast : x.id + (x.tree.size - 1) ∈ (x.tree.places x.parent x.next x.id).map Place.id := by
    rw [places_ids, List.mem_range'_1]
    lia
  obtain ⟨y, hy, hid⟩ := List.mem_map.mp hlast
  have := site_bounds (root.places_places hx hy)
  lia

theorem site_unique (hx : x ∈ root.sites) (hy : y ∈ root.sites) (h : x.id = y.id) : x = y := by
  refine List.inj_on_of_nodup_map (f := Place.id) ?_ hx hy h
  rw [root.sites_ids]
  exact List.nodup_range'

theorem root_mem_sites (root : JobTree) : ⟨none, none, 1, root⟩ ∈ root.sites :=
  root.mem_places_self none none 1

theorem child_mem_sites (hx : x ∈ root.sites) {before : Forest} {t : JobTree} {after : Forest}
    (h : x.tree.subtrees = before ++ t :: after) : x.child before t after ∈ root.sites :=
  child_mem_places hx h

/-- A place is the one of the whole tree or lies directly under a place. -/
theorem sites_cases (hy : y ∈ root.sites) : y = ⟨none, none, 1, root⟩ ∨
    ∃ x ∈ root.sites, ∃ before t after,
      x.tree.subtrees = before ++ t :: after ∧ y = x.child before t after :=
  places_cases root hy

/-! ### The table of a tree -/

theorem table_entries (root : JobTree) :
    root.table.entries = (root.number none none 1).map fun j => (j.id, j) := by
  refine SortedMap.entries_ofList (List.pairwise_map.mpr ?_)
  have h := List.pairwise_lt_range' (s := 1) (n := root.size)
  rw [← root.number_ids none none 1] at h
  exact List.pairwise_map.mp h

theorem table_jobs (root : JobTree) : root.table.jobs = root.sites.map Place.job := by
  rw [Table.jobs, SortedMap.values, table_entries, number_eq_map_places, List.map_map, List.map_map]
  rfl

theorem table_keys (root : JobTree) : root.table.keys = List.range' 1 root.size := by
  rw [SortedMap.keys, table_entries, List.map_map, ← root.number_ids none none 1]
  rfl

theorem table_size (root : JobTree) : root.table.size = root.size := by
  rw [SortedMap.size, table_entries, List.length_map, number_length]

theorem table_get?_iff {id : JobId} {j : Job} :
    root.table.get? id = some j ↔ ∃ x ∈ root.sites, x.id = id ∧ x.job = j := by
  rw [← SortedMap.mem_entries_iff, table_entries, number_eq_map_places]
  simp [sites, Place.job_id]

theorem table_get? (hx : x ∈ root.sites) : root.table.get? x.id = some x.job :=
  table_get?_iff.mpr ⟨x, hx, rfl, rfl⟩

theorem mem_table_jobs_iff {j : Job} : j ∈ root.table.jobs ↔ ∃ x ∈ root.sites, x.job = j := by
  rw [table_jobs, List.mem_map]

theorem table_owned (root : JobTree) : root.table.Owned := by
  intro id j h
  obtain ⟨x, -, rfl, rfl⟩ := table_get?_iff.mp h
  exact x.job_id

end JobTree

/-! ### Links between places -/

theorem mem_headIds_iff {k id : JobId} {f : Forest} :
    k ∈ headIds id f ↔ ∃ before t after, f = before ++ t :: after ∧ k = id + forestSize before := by
  constructor
  · intro h
    induction f generalizing id with
    | nil => simp [headIds] at h
    | cons t f ih =>
      rcases List.mem_cons.mp h with rfl | h
      · exact ⟨[], t, f, rfl, rfl⟩
      · obtain ⟨before, u, after, rfl, rfl⟩ := ih h
        exact ⟨t :: before, u, after, rfl, Nat.add_assoc _ _ _⟩
  · intro hx
    obtain ⟨before, t, after, rfl, rfl⟩ := hx
    rw [headIds_append]
    exact List.mem_append_right _ List.mem_cons_self

/-- Of two trees of a forest one ends before the other starts. -/
theorem forestSize_le_of_split {before before' after after' : Forest} {t u : JobTree}
    (h : before ++ t :: after = before' ++ u :: after')
    (hlt : forestSize before < forestSize before') :
    forestSize before + t.size ≤ forestSize before' := by
  rcases List.append_eq_append_iff.mp h with ⟨rest, hb, hrest⟩ | ⟨rest, hb, hrest⟩
  · cases rest with
    | nil => simp [hb] at hlt
    | cons v rest =>
      obtain rfl : t = v := by simpa using congrArg List.head? hrest
      rw [hb, forestSize_append, forestSize]
      omega
  · rw [hb, forestSize_append] at hlt
    omega

theorem JobKind.listed_eq_some {kind : JobKind} {heads ids : List JobId}
    (h : kind.listed heads = some ids) : ids ≠ [] ∧ ∀ b ∈ ids, b ∈ heads := by
  cases kind with
  | call worker =>
    cases heads with
    | nil => simp [listed] at h
    | cons a heads =>
      obtain rfl : [a] = ids := by simpa [listed] using h
      simp
  | batch =>
    cases heads with
    | nil => simp [listed] at h
    | cons a heads =>
      obtain rfl : a :: heads = ids := by simpa [listed] using h
      simp
  | branch => simp [listed] at h

namespace Place

theorem mem_heads_iff {x : Place} {b : JobId} : b ∈ x.heads ↔
    ∃ before t after, x.tree.subtrees = before ++ t :: after ∧ b = (x.child before t after).id :=
  mem_headIds_iff

/-- What follows a child is the tree behind it, under the same parent. -/
theorem child_next_eq_some {x : Place} {before : Forest} {t : JobTree} {after : Forest}
    {n : JobId} (h : (x.child before t after).next = some n) :
    x.tree.kind.chains = true ∧ n = (x.child before t after).id + t.size ∧
      ∃ u rest, after = u :: rest ∧ n = (x.child (before ++ [t]) u rest).id := by
  simp only [child] at h ⊢
  split at h
  · rename_i hc
    cases after with
    | nil => simp [headIds] at h
    | cons u rest =>
      obtain rfl : x.id + 1 + forestSize before + t.size = n := by simpa [headIds] using h
      refine ⟨hc, rfl, u, rest, rfl, ?_⟩
      simp [forestSize_append, forestSize, Nat.add_assoc]
  · simp at h

end Place

namespace JobTree

variable {root : JobTree} {x y : Place}

theorem site_parent {o : JobId} (hy : y ∈ root.sites) (h : y.parent = some o) :
    ∃ x ∈ root.sites, x.id = o ∧ x.id < y.id ∧ ∃ before t after,
      x.tree.subtrees = before ++ t :: after ∧ y = x.child before t after := by
  rcases sites_cases hy with rfl | ⟨x, hx, before, t, after, hbelow, rfl⟩
  · simp at h
  · refine ⟨x, hx, Option.some.inj h, ?_, before, t, after, hbelow, rfl⟩
    simp only [Place.child]
    lia

theorem site_parent_eq_none_iff (hy : y ∈ root.sites) : y.parent = none ↔ y.id = 1 := by
  rcases sites_cases hy with rfl | ⟨x, hx, before, t, after, hbelow, rfl⟩
  · simp
  · have := site_bounds hx
    simp only [Place.child]
    simp
    lia

/-- What follows a place comes right behind its tree, under the same parent. -/
theorem site_next {n : JobId} (hx : x ∈ root.sites) (h : x.next = some n) :
    n = x.id + x.tree.size ∧ ∃ y ∈ root.sites, y.id = n ∧ y.parent = x.parent := by
  rcases sites_cases hx with rfl | ⟨z, hz, before, t, after, hbelow, rfl⟩
  · simp at h
  · obtain ⟨-, hn, u, rest, rfl, hid⟩ := Place.child_next_eq_some h
    refine ⟨hn, z.child (before ++ [t]) u rest, child_mem_sites hz (by simpa using hbelow),
      hid.symm, rfl⟩

theorem site_next_lt {n : JobId} (hx : x ∈ root.sites) (h : x.next = some n) : x.id < n := by
  obtain ⟨hn, -⟩ := site_next hx h
  have := x.tree.size_pos
  lia

/-- Of two places under one parent the earlier one ends before the later one starts. -/
theorem site_end_le {o : JobId} (hx : x ∈ root.sites) (hy : y ∈ root.sites)
    (hxo : x.parent = some o) (hyo : y.parent = some o) (h : x.id < y.id) :
    x.id + x.tree.size ≤ y.id := by
  obtain ⟨z, hz, rfl, -, before, t, after, hbelow, rfl⟩ := site_parent hx hxo
  obtain ⟨w, hw, hid, -, before', u, after', hbelow', rfl⟩ := site_parent hy hyo
  obtain rfl := site_unique hw hz hid
  simp only [Place.child] at h ⊢
  have := forestSize_le_of_split (hbelow.symm.trans hbelow') (by lia)
  lia

theorem site_next_inj {n : JobId} (hx : x ∈ root.sites) (hy : y ∈ root.sites)
    (hxn : x.next = some n) (hyn : y.next = some n) : x = y := by
  obtain ⟨hxend, v, hv, hvid, hvx⟩ := site_next hx hxn
  obtain ⟨hyend, w, hw, hwid, hwy⟩ := site_next hy hyn
  obtain rfl := site_unique hv hw (hvid.trans hwid.symm)
  have hxpos := x.tree.size_pos
  have hypos := y.tree.size_pos
  cases hp : v.parent with
  | none =>
    have hone := (site_parent_eq_none_iff hv).mp hp
    have := site_bounds hx
    lia
  | some o =>
    apply site_unique hx hy
    by_contra hne
    rcases Nat.lt_or_gt_of_ne hne with hlt | hlt
    · have := site_end_le hx hy (hvx ▸ hp) (hwy ▸ hp) hlt
      lia
    · have := site_end_le hy hx (hwy ▸ hp) (hvx ▸ hp) hlt
      lia

theorem site_head {b : JobId} (hx : x ∈ root.sites) (hb : b ∈ x.heads) :
    ∃ y ∈ root.sites, y.id = b ∧ y.parent = some x.id := by
  obtain ⟨before, t, after, hbelow, rfl⟩ := Place.mem_heads_iff.mp hb
  exact ⟨_, child_mem_sites hx hbelow, rfl, rfl⟩

end JobTree

end Workflow
