import Workflow.Proofs.Plan.Accepted

/-!
How the jobs of a compiled plan lead to one another: each job but the root is either a branch of
its parent or what follows another job under that parent, never both.
-/

namespace Workflow

namespace Plan

def ids (p : Plan) : List JobId := p.table.keys

/-- The jobs of a plan make up chains under one another. -/
structure Branching (p : Plan) : Prop where
  root : p.root ∈ p.ids
  parent_none : ∀ id ∈ p.ids, p.parent? id = none → id = p.root
  root_parent : p.parent? p.root = none
  parent : ∀ c o, p.parent? c = some o → o ∈ p.ids ∧ o < c
  nodup : ∀ o, (p.branches o).Nodup
  branch : ∀ o, ∀ b ∈ p.branches o, p.parent? b = some o
  next : ∀ q n, p.next? q = some n → n ∈ p.ids ∧ q < n ∧ p.parent? n = p.parent? q
  next_inj : ∀ q q' n, p.next? q = some n → p.next? q' = some n → q = q'
  branch_ne_next : ∀ o, ∀ b ∈ p.branches o, ∀ q, p.next? q ≠ some b
  child : ∀ c o, p.parent? c = some o → c ∈ p.branches o ∨ ∃ q, p.next? q = some c

theorem mem_ids_iff {p : Plan} {id : JobId} : id ∈ p.ids ↔ 1 ≤ id ∧ id ≤ p.size := by
  rw [ids, keys_of_checkTable p.accepted, List.mem_range'_1, size]
  lia

theorem get?_isSome {p : Plan} {id : JobId} : (p.get? id).isSome = true ↔ id ∈ p.ids :=
  SortedMap.mem_keys_iff.symm

theorem mem_ids_of_get? {p : Plan} {id : JobId} {j : Job} (h : p.get? id = some j) :
    id ∈ p.ids := by
  rw [← get?_isSome, h, Option.isSome_some]

theorem mem_ids_of_parent? {p : Plan} {id o : JobId} (h : p.parent? id = some o) :
    id ∈ p.ids := by
  obtain ⟨j, hj, -⟩ := Option.bind_eq_some_iff.mp h
  exact mem_ids_of_get? hj

theorem mem_ids_of_next? {p : Plan} {id n : JobId} (h : p.next? id = some n) : id ∈ p.ids := by
  obtain ⟨j, hj, -⟩ := Option.bind_eq_some_iff.mp h
  exact mem_ids_of_get? hj

/-- Induction from the last job to the first. -/
theorem induction_down {p : Plan} {motive : JobId → Prop}
    (h : ∀ id ∈ p.ids, (∀ k ∈ p.ids, id < k → motive k) → motive id) :
    ∀ id ∈ p.ids, motive id := by
  intro id hid
  induction hn : p.size - id using Nat.strongRecOn generalizing id with
  | ind n ih =>
    refine h id hid fun k hk hlt => ih (p.size - k) ?_ k hk rfl
    have := (mem_ids_iff.mp hk).2
    lia

/-! ### Plans of trees -/

/-- In an ascending list the least of what is looked for is found. -/
theorem find?_eq_some_of_least {α : Type} {f : α → Nat} {l : List α} {a : α} {p : α → Bool}
    (hs : l.Pairwise fun b c => f b < f c) (ha : a ∈ l) (hpa : p a = true)
    (hle : ∀ b ∈ l, p b = true → f a ≤ f b) : l.find? p = some a := by
  induction l with
  | nil => cases ha
  | cons b l ih =>
    obtain ⟨hb, hs⟩ := List.pairwise_cons.mp hs
    rcases List.mem_cons.mp ha with rfl | ha
    · rw [List.find?_cons_of_pos hpa]
    · have hlt := hb a ha
      have hnot : ¬ p b = true := fun hpb =>
        absurd (hle b List.mem_cons_self hpb) (Nat.not_le_of_lt hlt)
      rw [List.find?_cons_of_neg hnot]
      exact ih hs ha fun c hc => hle c (List.mem_cons_of_mem _ hc)

section Tree

variable {p : Plan} {root : JobTree} (hp : p.table = root.table) {x y : Place}

include hp

theorem get?_site (hx : x ∈ root.sites) : p.get? x.id = some x.job := by
  rw [get?, hp]
  exact JobTree.table_get? hx

theorem site_of_get? {id : JobId} {j : Job} (h : p.get? id = some j) :
    ∃ x ∈ root.sites, x.id = id ∧ x.job = j := by
  rw [get?, hp] at h
  exact JobTree.table_get?_iff.mp h

theorem site_of_mem_ids {id : JobId} (h : id ∈ p.ids) : ∃ x ∈ root.sites, x.id = id := by
  obtain ⟨j, hj⟩ := Option.isSome_iff_exists.mp (get?_isSome.mpr h)
  obtain ⟨x, hx, hid, -⟩ := site_of_get? hp hj
  exact ⟨x, hx, hid⟩

theorem mem_ids_site (hx : x ∈ root.sites) : x.id ∈ p.ids :=
  mem_ids_of_get? (get?_site hp hx)

theorem parent?_site (hx : x ∈ root.sites) : p.parent? x.id = x.parent := by
  rw [parent?, get?_site hp hx, Option.bind_some, Place.job_parent]

theorem next?_site (hx : x ∈ root.sites) : p.next? x.id = x.next := by
  rw [next?, get?_site hp hx, Option.bind_some, Place.job_next]

theorem site_of_parent? {c o : JobId} (h : p.parent? c = some o) :
    ∃ y ∈ root.sites, y.id = c ∧ y.parent = some o := by
  obtain ⟨j, hj, hjo⟩ := Option.bind_eq_some_iff.mp h
  obtain ⟨y, hy, rfl, rfl⟩ := site_of_get? hp hj
  exact ⟨y, hy, rfl, by rwa [Place.job_parent] at hjo⟩

theorem site_of_next? {q n : JobId} (h : p.next? q = some n) :
    ∃ y ∈ root.sites, y.id = q ∧ y.next = some n := by
  obtain ⟨j, hj, hjn⟩ := Option.bind_eq_some_iff.mp h
  obtain ⟨y, hy, rfl, rfl⟩ := site_of_get? hp hj
  exact ⟨y, hy, rfl, by rwa [Place.job_next] at hjn⟩

/-- The first job under a place is the one behind it. -/
theorem find?_parent (hx : x ∈ root.sites) :
    (p.table.jobs.find? fun k => k.parent = some x.id).map Job.id = x.heads.head? := by
  rw [hp, JobTree.table_jobs, List.find?_map, Option.map_map]
  cases hb : x.tree.subtrees with
  | nil =>
    have hnone : root.sites.find? ((fun k => decide (k.parent = some x.id)) ∘ Place.job) =
        none := by
      refine List.find?_eq_none.mpr fun y hy => ?_
      rw [Function.comp_apply, decide_eq_true_eq, Place.job_parent]
      intro hyo
      obtain ⟨z, hz, hid, -, before, t, after, hbelow, -⟩ := JobTree.site_parent hy hyo
      obtain rfl := JobTree.site_unique hz hx hid
      simp [hb] at hbelow
    rw [hnone, Place.heads, hb]
    rfl
  | cons t after =>
    have hchild : x.child [] t after ∈ root.sites := JobTree.child_mem_sites hx hb
    have hfound := find?_eq_some_of_least root.sites_ascend hchild
      (p := (fun k => decide (k.parent = some x.id)) ∘ Place.job) (by simp [Place.child]) ?_
    · rw [hfound, Place.heads, hb]
      simp [Place.child, forestSize, headIds]
    · intro y hy hyo
      rw [Function.comp_apply, decide_eq_true_eq, Place.job_parent] at hyo
      obtain ⟨z, hz, hid, hlt, -⟩ := JobTree.site_parent hy hyo
      simp only [Place.child, forestSize]
      lia

/-- The branches of a job are the heads under it; where they follow one another, the first. -/
theorem branches_site (hx : x ∈ root.sites) :
    p.branches x.id = if x.tree.kind.chains then x.heads.head?.toList else x.heads := by
  have hentry := find?_parent hp hx
  rw [branches, get?_site hp hx, entry?, get?_site hp hx]
  simp only [hentry, Place.job_branches, Place.job_worker]
  cases x.tree.kind with
  | call worker =>
    cases x.heads <;> simp [JobKind.listed, JobKind.chains]
  | batch =>
    cases x.heads <;>
      simp [JobKind.listed, JobKind.chains, JobKind.worker, batchName, branchName]
  | branch => simp [JobKind.listed, JobKind.chains, JobKind.worker]

theorem site_of_branch {o b : JobId} (h : b ∈ p.branches o) :
    ∃ x ∈ root.sites, x.id = o ∧ b ∈ x.heads ∧
      (x.tree.kind.chains = true → x.heads.head? = some b) := by
  cases hj : p.get? o with
  | none => simp [branches, hj] at h
  | some j =>
    obtain ⟨x, hx, rfl, -⟩ := site_of_get? hp hj
    rw [branches_site hp hx] at h
    refine ⟨x, hx, rfl, ?_⟩
    split at h
    · have hb : x.heads.head? = some b := by simpa using h
      exact ⟨List.mem_of_head? hb, fun _ => hb⟩
    · rename_i hc
      exact ⟨h, fun hc' => absurd hc' hc⟩

theorem branch_or_next (hx : x ∈ root.sites) {before : Forest} {t : JobTree} {after : Forest}
    (hbelow : x.tree.subtrees = before ++ t :: after) :
    (x.child before t after).id ∈ p.branches x.id ∨
      ∃ q, p.next? q = some (x.child before t after).id := by
  rw [branches_site hp hx]
  cases hc : x.tree.kind.chains with
  | false =>
    left
    simpa using Place.mem_heads_iff.mpr ⟨before, t, after, hbelow, rfl⟩
  | true =>
    rcases List.eq_nil_or_concat before with rfl | ⟨before, u, rfl⟩
    · left
      simp [Place.heads, hbelow, headIds, Place.child, forestSize]
    · right
      have hz : x.child before u (t :: after) ∈ root.sites :=
        JobTree.child_mem_sites hx (by simpa using hbelow)
      refine ⟨_, (next?_site hp hz).trans ?_⟩
      simp [Place.child, hc, headIds, forestSize_append, forestSize, Nat.add_assoc]

/-- What follows another job stands behind the first under their parent. -/
theorem ne_branch_of_next {q n o : JobId} (hn : p.next? q = some n) : n ∉ p.branches o := by
  intro hb
  obtain ⟨y, hy, rfl, hyn⟩ := site_of_next? hp hn
  obtain ⟨x, hx, rfl, hmem, hhead⟩ := site_of_branch hp hb
  obtain ⟨-, w, hw, rfl, hwy⟩ := JobTree.site_next hy hyn
  obtain ⟨v, hv, hvw, hvx⟩ := JobTree.site_head hx hmem
  obtain rfl := JobTree.site_unique hv hw hvw
  obtain ⟨z, hz, hzx, -, before, t, after, hbelow, rfl⟩ := JobTree.site_parent hy (hwy ▸ hvx)
  obtain rfl := JobTree.site_unique hz hx hzx
  obtain ⟨hchains, hid, -⟩ := Place.child_next_eq_some hyn
  have hfirst := hhead hchains
  rw [Place.heads, hbelow] at hfirst
  have hpos := t.size_pos
  cases before with
  | nil =>
    simp only [List.nil_append, headIds, List.head?_cons, Option.some.injEq, Place.child,
      forestSize] at hfirst hid
    lia
  | cons u before =>
    have hu := u.size_pos
    simp only [List.cons_append, headIds, List.head?_cons, Option.some.injEq, Place.child,
      forestSize] at hfirst hid
    lia

theorem branching_of_tree (hroot : p.root = 1) : p.Branching where
  root := by
    rw [hroot]
    exact mem_ids_site hp root.root_mem_sites
  parent_none := by
    intro id hid hnone
    obtain ⟨x, hx, rfl⟩ := site_of_mem_ids hp hid
    rw [hroot]
    exact (JobTree.site_parent_eq_none_iff hx).mp (by rwa [parent?_site hp hx] at hnone)
  root_parent := by
    rw [hroot]
    exact parent?_site hp root.root_mem_sites
  parent := by
    intro c o h
    obtain ⟨y, hy, rfl, hyo⟩ := site_of_parent? hp h
    obtain ⟨x, hx, rfl, hlt, -⟩ := JobTree.site_parent hy hyo
    exact ⟨mem_ids_site hp hx, hlt⟩
  nodup := by
    intro o
    cases hj : p.get? o with
    | none => simp [branches, hj]
    | some j =>
      obtain ⟨x, hx, rfl, -⟩ := site_of_get? hp hj
      rw [branches_site hp hx]
      split
      · cases x.heads.head? <;> simp
      · exact (headIds_pairwise _ _).imp fun hlt => Nat.ne_of_lt hlt
  branch := by
    intro o b hb
    obtain ⟨x, hx, rfl, hmem, -⟩ := site_of_branch hp hb
    obtain ⟨y, hy, rfl, hyo⟩ := JobTree.site_head hx hmem
    rw [parent?_site hp hy, hyo]
  next := by
    intro q n h
    obtain ⟨x, hx, rfl, hxn⟩ := site_of_next? hp h
    obtain ⟨-, y, hy, rfl, hyx⟩ := JobTree.site_next hx hxn
    refine ⟨mem_ids_site hp hy, JobTree.site_next_lt hx hxn, ?_⟩
    rw [parent?_site hp hx, parent?_site hp hy, hyx]
  next_inj := by
    intro q q' n h h'
    obtain ⟨x, hx, rfl, hxn⟩ := site_of_next? hp h
    obtain ⟨y, hy, rfl, hyn⟩ := site_of_next? hp h'
    rw [JobTree.site_next_inj hx hy hxn hyn]
  branch_ne_next := fun o b hb q hq => ne_branch_of_next hp hq hb
  child := by
    intro c o h
    obtain ⟨y, hy, rfl, hyo⟩ := site_of_parent? hp h
    obtain ⟨x, hx, rfl, -, before, t, after, hbelow, rfl⟩ := JobTree.site_parent hy hyo
    exact branch_or_next hp hx hbelow

end Tree

/-- Compiled plans branch. -/
theorem branching_of_compile {r : Registry} {args : Scope} {n : Node} {p : Plan}
    (h : compile r args n = .ok p.table) : p.Branching := by
  have hroot : p.root = 1 := by
    have := p.accepted.symm.trans (checkTable_compiled h)
    exact Except.ok.inj this
  obtain ⟨root, hp, -⟩ := tree_of_compile h
  exact branching_of_tree hp hroot

end Plan

end Workflow
