import Mathlib.Data.List.Chain
import Mathlib.Data.List.Sort
import Workflow.Proofs.Plan.Branching
import Workflow.Proofs.Registry.Registrations

/-!
Compiled plans are numbered in pre-order: the jobs under a job have the ids right behind it, without
a gap. So the first job under a job is the next by id, what follows a job comes right behind all
that is under it, and so do the branches of a batch, one behind the other.
-/

namespace Workflow

namespace Plan

/-- How many jobs a job and all under it are. -/
def span (p : Plan) (id : JobId) : Nat := (p.subtree id).length

/-- The ids of a plan go down before they go on. -/
structure PreOrder (p : Plan) : Prop where
  interval : ∀ id ∈ p.ids, 0 < p.span id ∧ p.subtree id = List.range' id (p.span id)
  ascend : ∀ id ∈ p.ids, (p.childIds id).Pairwise (· < ·)
  first : ∀ id ∈ p.ids, 1 < p.span id → (p.childIds id).head? = some (id + 1)
  entry : ∀ id j, p.get? id = some j → j.worker ≠ batchName → 1 < p.span id →
    p.branches id = [id + 1]
  next : ∀ id n, p.next? id = some n → n = id + p.span id
  batch : ∀ id j, p.get? id = some j → j.worker = batchName →
    j.branches.getD [] = p.childIds id ∧
      ∀ ids, j.branches = some ids → ids.head? = some (id + 1) ∧
        ids.IsChain (fun a b => b = a + p.span a) ∧
        ∀ b ∈ ids, (∃ k, p.get? b = some k ∧ k.worker = branchName) ∧ p.next? b = none
  chain : ∀ id j, p.get? id = some j → j.worker ≠ batchName →
    (p.childIds id).IsChain (fun a b => p.next? a = some b) ∧
      ∀ last ∈ (p.childIds id).getLast?, p.next? last = none
  nodup : ∀ id, (p.branches id).Nodup
  linked : ∀ id ∈ p.ids, id ≠ p.root →
    ((∃! o, id ∈ p.branches o) ∧ ∀ q, p.next? q ≠ some id) ∨
      ((∃! q, p.next? q = some id) ∧ ∀ o, id ∉ p.branches o)

/-- Each job but the root is the branch of one job and follows none, or follows one job and is the
branch of none. -/
theorem Branching.linked {p : Plan} (hp : p.Branching) {id : JobId} (hid : id ∈ p.ids)
    (hroot : id ≠ p.root) :
    ((∃! o, id ∈ p.branches o) ∧ ∀ q, p.next? q ≠ some id) ∨
      ((∃! q, p.next? q = some id) ∧ ∀ o, id ∉ p.branches o) := by
  cases ho : p.parent? id with
  | none => exact absurd (hp.parent_none id hid ho) hroot
  | some o =>
    rcases hp.child id o ho with hb | ⟨q, hq⟩
    · refine .inl ⟨⟨o, hb, fun o' hb' => ?_⟩, hp.branch_ne_next o id hb⟩
      exact Option.some.inj ((hp.branch o' id hb').symm.trans ho)
    · refine .inr ⟨⟨q, hq, fun q' hq' => hp.next_inj q' q id hq' hq⟩, fun o hb => ?_⟩
      exact hp.branch_ne_next o id hb q hq

end Plan

/-! ### The ids of a forest -/

section HeadIds

variable {id : JobId} {f : Forest}

theorem JobTree.size_eq (t : JobTree) : t.size = forestSize t.subtrees + 1 := by
  cases t with
  | node => rw [JobTree.size, JobTree.subtrees]

theorem flatMap_headIds {g : JobId → List JobId}
    (h : ∀ before t after, f = before ++ t :: after →
      g (id + forestSize before) = List.range' (id + forestSize before) t.size) :
    (headIds id f).flatMap g = List.range' id (forestSize f) := by
  induction f generalizing id with
  | nil => rfl
  | cons t f ih =>
    have hfirst : g id = List.range' id t.size := h [] t f rfl
    have hrest : (headIds (id + t.size) f).flatMap g =
        List.range' (id + t.size) (forestSize f) := by
      refine ih fun before u after hf => ?_
      have := h (t :: before) u after (by rw [hf, List.cons_append])
      rwa [forestSize, ← Nat.add_assoc] at this
    rw [headIds, List.flatMap_cons, hfirst, hrest, forestSize, List.range'_append_1]

theorem isChain_headIds {R : JobId → JobId → Prop}
    (h : ∀ before t u after, f = before ++ t :: u :: after →
      R (id + forestSize before) (id + forestSize before + t.size)) :
    (headIds id f).IsChain R := by
  induction f generalizing id with
  | nil => exact .nil
  | cons t f ih =>
    cases f with
    | nil => exact .singleton _
    | cons u f =>
      have hrest : (headIds (id + t.size) (u :: f)).IsChain R := by
        refine ih fun before v w after hf => ?_
        have := h (t :: before) v w after (by rw [hf, List.cons_append])
        rwa [forestSize, ← Nat.add_assoc] at this
      exact List.isChain_cons_cons.mpr ⟨h [] t u f rfl, hrest⟩

theorem getLast?_headIds {k : JobId} (h : (headIds id f).getLast? = some k) :
    ∃ before t, f = before ++ [t] ∧ k = id + forestSize before := by
  rcases List.eq_nil_or_concat f with rfl | ⟨before, t, rfl⟩
  · cases h
  · refine ⟨before, t, List.concat_eq_append, ?_⟩
    rw [List.concat_eq_append, headIds_append] at h
    simpa [headIds, eq_comm] using h

end HeadIds

/-! ### Plans of trees -/

/-- Where a job is under the name of batches, its tree is a batch. -/
theorem JobTree.Formed.kind_of_worker {r : Registry} {t : JobTree} (ht : t.Formed r)
    (hr : r.Consistent) (h : t.kind.worker = batchName) : t.kind = .batch := by
  cases hk : t.kind with
  | batch => rfl
  | branch =>
    rw [hk] at h
    exact absurd h (by decide)
  | call name =>
    rw [hk] at h
    obtain rfl : name = batchName := h
    have hplain : isStructuralName batchName = true := by decide
    rcases ht.named _ hk with hw | hd | hs
    · exact absurd (hr.worker _ hw) (by simp [hplain])
    · obtain ⟨d, hd⟩ := Option.isSome_iff_exists.mp hd
      exact absurd (hr.definition _ d hd).2 (by simp [hplain])
    · exact absurd hs (by decide)

theorem JobKind.chains_of_worker_ne {kind : JobKind} (h : kind.worker ≠ batchName) :
    kind.chains = true := by
  cases kind with
  | batch => exact absurd rfl h
  | call worker => rfl
  | branch => rfl

namespace Plan

section Tree

variable {p : Plan} {root : JobTree} (hp : p.table = root.table) {x : Place}

include hp

theorem childIds_site (hx : x ∈ root.sites) : p.childIds x.id = x.heads := by
  have hsites : p.childIds x.id =
      (root.sites.filter fun y => y.parent = some x.id).map Place.id := by
    rw [childIds, hp, JobTree.table_jobs, List.filter_map, List.map_map]
    simp [Function.comp_def]
  have hascend : (p.childIds x.id).Pairwise (· < ·) := by
    rw [hsites]
    exact List.pairwise_map.mpr (root.sites_ascend.filter _)
  refine hascend.eq_of_mem_iff (headIds_pairwise _ _) fun k => ?_
  rw [hsites, List.mem_map]
  constructor
  · intro h
    obtain ⟨y, hy, rfl⟩ := h
    obtain ⟨hy, hyx⟩ := List.mem_filter.mp hy
    obtain ⟨z, hz, hzx, -, before, t, after, hbelow, rfl⟩ :=
      JobTree.site_parent hy (of_decide_eq_true hyx)
    obtain rfl := JobTree.site_unique hz hx hzx
    exact Place.mem_heads_iff.mpr ⟨before, t, after, hbelow, rfl⟩
  · intro h
    obtain ⟨y, hy, rfl, hyx⟩ := JobTree.site_head hx h
    exact ⟨y, List.mem_filter.mpr ⟨hy, decide_eq_true hyx⟩, rfl⟩

/-- Going down from a place comes by all ids of its tree in turn. -/
theorem descend_site {levels : Nat} (hx : x ∈ root.sites) (h : x.tree.size ≤ levels + 1) :
    p.descend levels x.id = List.range' x.id x.tree.size := by
  induction levels generalizing x with
  -- Without a level to go down there is room for the place alone.
  | zero =>
    have := x.tree.size_pos
    rw [descend, show x.tree.size = 1 by lia, List.range'_one]
  | succ levels ih =>
    rw [JobTree.size_eq] at h ⊢
    rw [descend, childIds_site hp hx, List.range'_succ, Place.heads]
    refine congrArg _ (flatMap_headIds fun before t after hbelow => ?_)
    refine ih (JobTree.child_mem_sites hx hbelow) ?_
    rw [hbelow, forestSize_append, forestSize] at h
    simp only [Place.child]
    lia

theorem subtree_site (hx : x ∈ root.sites) : p.subtree x.id = List.range' x.id x.tree.size := by
  have hsize : p.size = root.size := by rw [size, hp, JobTree.table_size]
  have := JobTree.site_end hx
  have := JobTree.site_bounds hx
  rw [subtree, get?_site hp hx, Option.isSome_some, if_pos rfl,
    descend_site hp hx (by lia)]
  refine List.mergeSort_of_pairwise ?_
  exact (List.pairwise_lt_range').imp fun hlt => decide_eq_true (Nat.le_of_lt hlt)

theorem span_site (hx : x ∈ root.sites) : p.span x.id = x.tree.size := by
  rw [span, subtree_site hp hx, List.length_range']

theorem heads_of_span (hx : x ∈ root.sites) (h : 1 < p.span x.id) :
    ∃ rest, x.heads = (x.id + 1) :: rest := by
  rw [span_site hp hx, JobTree.size_eq] at h
  rw [Place.heads]
  cases hbelow : x.tree.subtrees with
  | nil =>
    rw [hbelow, forestSize] at h
    exact absurd h (Nat.lt_irrefl _)
  | cons t rest => exact ⟨_, rfl⟩

/-- Where the jobs under a job follow one another, they do so in the order of their ids. -/
theorem childIds_isChain_site (hx : x ∈ root.sites) (hc : x.tree.kind.chains = true) :
    (p.childIds x.id).IsChain (fun a b => p.next? a = some b) ∧
      ∀ last ∈ (p.childIds x.id).getLast?, p.next? last = none := by
  rw [childIds_site hp hx, Place.heads]
  constructor
  · refine isChain_headIds fun before t u after hbelow => ?_
    refine (next?_site hp (JobTree.child_mem_sites hx hbelow)).trans ?_
    simp [Place.child, hc, headIds]
  · intro last hlast
    obtain ⟨before, t, hbelow, rfl⟩ := getLast?_headIds hlast
    refine (next?_site hp (JobTree.child_mem_sites hx hbelow)).trans ?_
    simp [Place.child, headIds]

/-- The trees under a place come one right behind the other. -/
theorem heads_isChain_site (hx : x ∈ root.sites) :
    x.heads.IsChain (fun a b => b = a + p.span a) := by
  refine isChain_headIds fun before t u after hbelow => ?_
  have hspan := span_site hp (JobTree.child_mem_sites hx hbelow)
  simp only [Place.child] at hspan
  rw [hspan]

theorem branch_site (hx : x ∈ root.sites) (hk : x.tree.kind = .batch)
    (hbelow : ∀ t ∈ x.tree.subtrees, t.kind = .branch) {b : JobId} (hb : b ∈ x.heads) :
    (∃ k, p.get? b = some k ∧ k.worker = branchName) ∧ p.next? b = none := by
  obtain ⟨before, t, after, hsplit, rfl⟩ := Place.mem_heads_iff.mp hb
  have hy := JobTree.child_mem_sites hx hsplit
  have hkind : t.kind = .branch := hbelow t (by simp [hsplit])
  refine ⟨⟨_, get?_site hp hy, ?_⟩, ?_⟩
  · rw [Place.job_worker]
    exact congrArg JobKind.worker hkind
  · rw [next?_site hp hy]
    simp [Place.child, hk, JobKind.chains]

theorem batch_site (hx : x ∈ root.sites) (hk : x.tree.kind = .batch)
    (hbelow : ∀ t ∈ x.tree.subtrees, t.kind = .branch) :
    x.job.branches.getD [] = p.childIds x.id ∧
      ∀ ids, x.job.branches = some ids → ids.head? = some (x.id + 1) ∧
        ids.IsChain (fun a b => b = a + p.span a) ∧
        ∀ b ∈ ids, (∃ k, p.get? b = some k ∧ k.worker = branchName) ∧ p.next? b = none := by
  rw [childIds_site hp hx, Place.job_branches, hk, JobKind.listed]
  refine ⟨by cases x.heads <;> rfl, fun ids hids => ?_⟩
  split at hids
  · cases hids
  rename_i hne
  obtain rfl := Option.some.inj hids
  refine ⟨?_, heads_isChain_site hp hx, fun b hb => branch_site hp hx hk hbelow hb⟩
  rw [Place.heads] at hne ⊢
  cases hs : x.tree.subtrees with
  | nil => exact absurd (by rw [hs]; rfl) hne
  | cons t rest => rfl

/-- Plans of trees that are made as an expansion makes them are numbered in pre-order. -/
theorem preOrder_of_tree {r : Registry} (hr : r.Consistent) (ht : root.All (JobTree.Formed r))
    (hroot : p.root = 1) : p.PreOrder := by
  have hbranching := branching_of_tree hp hroot
  constructor
  case interval =>
    intro id hid
    obtain ⟨x, hx, rfl⟩ := site_of_mem_ids hp hid
    rw [span_site hp hx]
    exact ⟨x.tree.size_pos, subtree_site hp hx⟩
  case ascend =>
    intro id hid
    obtain ⟨x, hx, rfl⟩ := site_of_mem_ids hp hid
    rw [childIds_site hp hx]
    exact headIds_pairwise _ _
  case first =>
    intro id hid hspan
    obtain ⟨x, hx, rfl⟩ := site_of_mem_ids hp hid
    obtain ⟨rest, hheads⟩ := heads_of_span hp hx hspan
    rw [childIds_site hp hx, hheads, List.head?_cons]
  case entry =>
    intro id j hj hw hspan
    obtain ⟨x, hx, rfl, rfl⟩ := site_of_get? hp hj
    obtain ⟨rest, hheads⟩ := heads_of_span hp hx hspan
    rw [Place.job_worker] at hw
    rw [branches_site hp hx, if_pos (JobKind.chains_of_worker_ne hw), hheads]
    rfl
  case next =>
    intro id n hn
    obtain ⟨x, hx, rfl, hxn⟩ := site_of_next? hp hn
    rw [span_site hp hx]
    exact (JobTree.site_next hx hxn).1
  case batch =>
    intro id j hj hw
    obtain ⟨x, hx, rfl, rfl⟩ := site_of_get? hp hj
    rw [Place.job_worker] at hw
    have hformed : x.tree.Formed r := ht.place hx
    have hk := hformed.kind_of_worker hr hw
    exact batch_site hp hx hk (hformed.branches hk)
  case chain =>
    intro id j hj hw
    obtain ⟨x, hx, rfl, rfl⟩ := site_of_get? hp hj
    rw [Place.job_worker] at hw
    exact childIds_isChain_site hp hx (JobKind.chains_of_worker_ne hw)
  case nodup => exact hbranching.nodup
  case linked => exact fun id hid hne => hbranching.linked hid hne

end Tree

end Plan

/-- Compiling in a registry that holds no reserved name gives a plan that is numbered in
pre-order. -/
theorem compiled_preOrder {r : Registry} (hr : r.Consistent) {args : Scope} {n : Node} {t : Table}
    (h : compile r args n = .ok t) :
    ∃ p, Plan.ofTable t = .ok p ∧ p.table = t ∧ p.PreOrder := by
  obtain ⟨root, ht, hroot⟩ := formed_of_compile h
  refine ⟨_, Plan.ofTable_eq (checkTable_compiled h), rfl, ?_⟩
  exact Plan.preOrder_of_tree ht hr hroot rfl

/-- The batch of two branches: the second begins behind all that is under the first. -/
theorem notifyTwice_preOrder : ∃ p, Plan.ofTable (Table.ofJobs notifyJobs) = .ok p ∧
    p.PreOrder ∧ p.branches 1 = [2, 5] ∧ p.span 2 = 3 := by
  have hr : notifier.Consistent := Registry.consistent_empty.afterAll [.worker "Notify"]
  obtain ⟨p, hp, ht, horder⟩ := compiled_preOrder hr notifyJobs_compiled
  have hsame := hp.symm.trans (Plan.ofTable_eq (checkTable_compiled notifyJobs_compiled))
  obtain rfl := Except.ok.inj hsame
  obtain ⟨-, hchain, -⟩ := (horder.batch 1 _ rfl rfl).2 [2, 5] rfl
  have hsecond : 5 = 2 + Plan.span _ 2 := (List.isChain_cons_cons.mp hchain).1
  exact ⟨_, hp, horder, by decide, by lia⟩

end Workflow
