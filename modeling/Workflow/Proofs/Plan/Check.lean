import Mathlib.Data.List.Basic
import Mathlib.Logic.Relation
import Workflow.Plan.Check
import Workflow.Proofs.Data.Except
import Workflow.Proofs.Data.SortedMap

/-!
What the check of a table looks for, said without the order in which it looks: a job fits into a
table by itself, and the links to following jobs make up chains.
-/

namespace Workflow

namespace Table

/-- Every job stands under its own id. -/
def Owned (t : Table) : Prop := ∀ id j, t.get? id = some j → j.id = id

/-- `b` is what follows `a`. -/
def Follows (t : Table) (a b : JobId) : Prop := (t.get? a).bind Job.next = some b

/-- What can be said of one job of a table and the jobs that it names. -/
structure Fits (t : Table) (j : Job) : Prop where
  paired : j.keys.length = j.values.length
  parent : ∀ o, j.parent = some o → t.contains o = true ∧ o < j.id
  listed : ∀ ids, j.branches = some ids →
    ids ≠ [] ∧ ∀ b ∈ ids, ∃ k, t.get? b = some k ∧ k.parent = some j.id
  next : ∀ n, j.next = some n → ∃ k, t.get? n = some k ∧ k.parent = j.parent

/-- A table that can be run. -/
structure Sound (t : Table) (root : JobId) : Prop where
  keys : t.keys = List.range' 1 t.size
  has_root : ∃ j ∈ t.jobs, j.id = root
  root_iff : ∀ j ∈ t.jobs, j.parent = none ↔ j.id = root
  fits : ∀ j ∈ t.jobs, t.Fits j
  once : ∀ j ∈ t.jobs, ∀ k ∈ t.jobs, ∀ n, j.next = some n → k.next = some n → j.id = k.id
  acyclic : ∀ id, ¬ Relation.TransGen t.Follows id id

theorem mem_jobs_iff {t : Table} {j : Job} : j ∈ t.jobs ↔ ∃ id, t.get? id = some j := by
  rw [jobs, SortedMap.values]
  constructor
  · intro h
    obtain ⟨e, he, rfl⟩ := List.mem_map.mp h
    exact ⟨e.1, SortedMap.mem_entries_iff.mp he⟩
  · intro hx
    obtain ⟨id, h⟩ := hx
    exact List.mem_map.mpr ⟨(id, j), SortedMap.mem_entries_iff.mpr h, rfl⟩

theorem Owned.get? {t : Table} (ht : t.Owned) {j : Job} (hj : j ∈ t.jobs) :
    t.get? j.id = some j := by
  obtain ⟨id, h⟩ := mem_jobs_iff.mp hj
  rw [ht id j h, h]

theorem Owned.map_id {t : Table} (ht : t.Owned) : t.jobs.map Job.id = t.keys := by
  rw [jobs, SortedMap.values, SortedMap.keys, List.map_map]
  refine List.map_congr_left fun e he => ?_
  exact ht e.1 e.2 (SortedMap.mem_entries_iff.mp he)

theorem Owned.jobs_nodup {t : Table} (ht : t.Owned) : t.jobs.Nodup := by
  have h := t.keys_nodup
  rw [← ht.map_id] at h
  exact List.Pairwise.of_map Job.id (fun _ _ hne he => hne (congrArg Job.id he)) h

theorem Owned.eq_of_id {t : Table} (ht : t.Owned) {j k : Job} (hj : j ∈ t.jobs) (hk : k ∈ t.jobs)
    (h : j.id = k.id) : j = k := by
  have hget := ht.get? hj
  rw [h, ht.get? hk] at hget
  exact (Option.some.inj hget).symm

end Table

/-! ### The checks of a job -/

theorem checkIds_eq_ok_iff {last : JobId} {ids : List JobId} :
    checkIds last ids = .ok () ↔ ids = List.range' (last + 1) ids.length := by
  induction ids generalizing last with
  | nil => simp [checkIds]
  | cons id rest ih =>
    rw [checkIds, List.length_cons, List.range'_succ]
    by_cases h : id = last + 1
    · subst h
      simp [ih]
    · simp [h]

theorem checkParent_eq_ok_iff {t : Table} {j : Job} :
    checkParent t j = .ok () ↔ ∀ o, j.parent = some o → t.contains o = true ∧ o < j.id := by
  rw [checkParent]
  cases j.parent with
  | none => simp
  | some o =>
    by_cases hc : t.contains o = true
    · by_cases hle : j.id ≤ o
      · simp [hc, hle]
      · simp [hc, hle, Nat.lt_of_not_le hle]
    · simp [hc]

theorem checkListed_eq_ok_iff {t : Table} {id : JobId} {ids : List JobId} :
    checkListed t id ids = .ok () ↔ ∀ b ∈ ids, ∃ k, t.get? b = some k ∧ k.parent = some id := by
  induction ids with
  | nil => simp [checkListed]
  | cons b rest ih =>
    rw [checkListed]
    cases hk : t.get? b with
    | none => simp [hk]
    | some k =>
      by_cases hp : k.parent = some id
      · simp [hk, hp, ih]
      · simp [hk, hp]

theorem checkBranches_eq_ok_iff {t : Table} {j : Job} :
    checkBranches t j = .ok () ↔ ∀ ids, j.branches = some ids →
      ids ≠ [] ∧ ∀ b ∈ ids, ∃ k, t.get? b = some k ∧ k.parent = some j.id := by
  rw [checkBranches]
  cases j.branches with
  | none => simp
  | some ids =>
    cases ids with
    | nil => simp
    | cons b rest => simp [checkListed_eq_ok_iff]

theorem checkNext_eq_ok_iff {t : Table} {followers : List JobId} {j : Job} {out : List JobId} :
    checkNext t followers j = .ok out ↔
      (∀ n, j.next = some n → ∃ k, t.get? n = some k ∧ k.parent = j.parent) ∧
      (∀ n, j.next = some n → n ∉ followers) ∧ out = followers ++ j.next.toList := by
  rw [checkNext]
  cases hn : j.next with
  | none => simp [eq_comm]
  | some n =>
    cases hk : t.get? n with
    | none => simp [hk]
    | some k =>
      by_cases hp : k.parent = j.parent
      · by_cases hm : n ∈ followers
        · simp [hk, hp, hm]
        · simp [hk, hp, hm, eq_comm]
      · simp [hk, hp]

/-- Jobs pass when each of them fits, and none is followed by what already follows a job. -/
theorem checkJobs_eq_ok_iff {t : Table} {followers : List JobId} {js : List Job}
    {out : List JobId} :
    checkJobs t followers js = .ok out ↔
      (∀ j ∈ js, t.Fits j) ∧ (∀ n ∈ js.filterMap Job.next, n ∉ followers) ∧
      (js.filterMap Job.next).Nodup ∧ out = followers ++ js.filterMap Job.next := by
  induction js generalizing followers with
  | nil => simp [checkJobs, eq_comm]
  | cons j rest ih =>
    have hfits : t.Fits j ↔ j.keys.length = j.values.length ∧ checkParent t j = .ok () ∧
        checkBranches t j = .ok () ∧
        ∀ n, j.next = some n → ∃ k, t.get? n = some k ∧ k.parent = j.parent := by
      rw [checkParent_eq_ok_iff, checkBranches_eq_ok_iff]
      exact ⟨fun h => ⟨h.paired, h.parent, h.listed, h.next⟩,
        fun h => ⟨h.1, h.2.1, h.2.2.1, h.2.2.2⟩⟩
    have hstep : checkJobs t followers (j :: rest) = .ok out ↔
        j.keys.length = j.values.length ∧ checkParent t j = .ok () ∧
        checkBranches t j = .ok () ∧
        ∃ fs, checkNext t followers j = .ok fs ∧ checkJobs t fs rest = .ok out := by
      rw [checkJobs]
      by_cases hl : j.keys.length = j.values.length
      · cases checkParent t j <;> cases checkBranches t j <;>
          simp [hl, Except.bind_eq_ok_iff]
      · simp [hl, Except.bind_eq_ok_iff, throw, throwThe, MonadExceptOf.throw]
    rw [hstep, List.forall_mem_cons, hfits]
    cases hn : j.next with
    | none =>
      rw [List.filterMap_cons_none hn]
      simp [checkNext_eq_ok_iff, hn, ih, and_assoc]
    | some n =>
      rw [List.filterMap_cons_some hn]
      simp only [checkNext_eq_ok_iff, hn, ih, List.nodup_cons, Option.toList_some,
        Option.some.injEq, forall_eq', List.forall_mem_cons]
      constructor
      · intro hx
        obtain ⟨hl, hp, hb, fs, ⟨hk, hm, rfl⟩, hrest, hnot, hnd, rfl⟩ := hx
        refine ⟨⟨⟨hl, hp, hb, hk⟩, hrest⟩, ⟨hm, fun m hm' hf => hnot m hm' ?_⟩,
          ⟨fun hmem => hnot n hmem ?_, hnd⟩, by simp⟩
        · exact List.mem_append_left _ hf
        · exact List.mem_append_right _ List.mem_cons_self
      · intro hx
        obtain ⟨⟨⟨hl, hp, hb, hk⟩, hrest⟩, ⟨hm, hnot⟩, ⟨hmem, hnd⟩, rfl⟩ := hx
        refine ⟨hl, hp, hb, _, ⟨hk, hm, rfl⟩, hrest, fun m hm' hf => ?_, hnd, by simp⟩
        rcases List.mem_append.mp hf with hf | hf
        · exact hnot m hm' hf
        · rw [List.mem_singleton.mp hf] at hm'
          exact hmem hm'

/-! ### Chains of following jobs -/

namespace Table

theorem mem_followers_iff {t : Table} {id : JobId} :
    id ∈ t.jobs.filterMap Job.next ↔ ∃ j ∈ t.jobs, j.next = some id :=
  List.mem_filterMap

theorem Owned.follows {t : Table} (ht : t.Owned) {j : Job} {id : JobId} (hj : j ∈ t.jobs)
    (hn : j.next = some id) : t.Follows j.id id := by
  rw [Follows, ht.get? hj, Option.bind_some, hn]

theorem Follows.mem_jobs {t : Table} {a b : JobId} (h : t.Follows a b) :
    ∃ j ∈ t.jobs, t.get? a = some j ∧ j.next = some b := by
  obtain ⟨j, hj, hn⟩ := Option.bind_eq_some_iff.mp h
  exact ⟨j, mem_jobs_iff.mpr ⟨a, hj⟩, hj, hn⟩

/-- Without cycles no chain meets a job twice. -/
theorem chain_nodup {t : Table} (acyclic : ∀ id, ¬ Relation.TransGen t.Follows id id)
    {ids : List JobId} (h : ids.IsChain t.Follows) : ids.Nodup := by
  have hlong : ids.IsChain (Relation.TransGen t.Follows) := h.imp fun _ _ => .single
  refine (List.isChain_iff_pairwise.mp hlong).imp fun hab he => ?_
  exact acyclic _ (he ▸ hab)

theorem chain_length_le {t : Table} (acyclic : ∀ id, ¬ Relation.TransGen t.Follows id id)
    {ids : List JobId} (h : ids.IsChain t.Follows) (hkeys : ∀ id ∈ ids, id ∈ t.keys) :
    ids.length ≤ t.size := by
  have hlen := (chain_nodup acyclic h).length_le_of_subset hkeys
  rwa [SortedMap.keys, List.length_map] at hlen

/-- Going back from a job, either a chain of any length comes up or the first job of one. -/
theorem exists_chain {t : Table} (ht : t.Owned) {id : JobId} (hid : id ∈ t.keys) (k : Nat) :
    ∃ a ids, (a :: ids).IsChain t.Follows ∧ id ∈ a :: ids ∧ (∀ b ∈ a :: ids, b ∈ t.keys) ∧
      (ids.length = k ∨ a ∉ t.jobs.filterMap Job.next) := by
  induction k with
  | zero =>
    exact ⟨id, [], List.IsChain.singleton id, List.mem_cons_self, by simpa using hid, .inl rfl⟩
  | succ k ih =>
    obtain ⟨a, ids, hchain, hmem, hkeys, hlen | hfirst⟩ := ih
    -- A job with a predecessor is no first one, and the chain grows at its front.
    · by_cases ha : a ∈ t.jobs.filterMap Job.next
      · obtain ⟨j, hj, hn⟩ := mem_followers_iff.mp ha
        have hkey : j.id ∈ t.keys := by
          rw [← ht.map_id]
          exact List.mem_map_of_mem hj
        exact ⟨j.id, a :: ids, List.isChain_cons_cons.mpr ⟨ht.follows hj hn, hchain⟩,
          List.mem_cons_of_mem _ hmem, List.forall_mem_cons.mpr ⟨hkey, hkeys⟩,
          .inl (by rw [List.length_cons, hlen])⟩
      · exact ⟨a, ids, hchain, hmem, hkeys, .inr ha⟩
    · exact ⟨a, ids, hchain, hmem, hkeys, .inr hfirst⟩

end Table

/-- What stands on a chain from a job on is found by following the chain. -/
theorem mem_chainFrom {t : Table} {steps : Nat} {a id : JobId} {ids : List JobId}
    (h : (a :: ids).IsChain t.Follows) (hlen : ids.length ≤ steps) (hid : id ∈ a :: ids) :
    id ∈ chainFrom t steps a := by
  induction ids generalizing a steps with
  | nil =>
    rw [List.mem_singleton.mp hid]
    cases steps with
    | zero => simp [chainFrom]
    | succ steps =>
      rw [chainFrom]
      split <;> simp
  | cons b ids ih =>
    obtain ⟨hab, hrest⟩ := List.isChain_cons_cons.mp h
    cases steps with
    | zero => simp at hlen
    | succ steps =>
      rw [chainFrom, show (t.get? a).bind Job.next = some b from hab]
      rcases List.mem_cons.mp hid with rfl | hid
      · exact List.mem_cons_self
      · exact List.mem_cons_of_mem _ (ih hrest (by simpa using hlen) hid)

/-- Without cycles every follower stands on a chain from a job that follows none. -/
theorem unreached_eq_nil {t : Table} (ht : t.Owned)
    (hnext : ∀ id ∈ t.jobs.filterMap Job.next, id ∈ t.keys)
    (acyclic : ∀ id, ¬ Relation.TransGen t.Follows id id) :
    unreached t (t.jobs.filterMap Job.next) = [] := by
  refine List.filter_eq_nil_iff.mpr fun id hid => ?_
  rw [decide_eq_true_eq, not_not]
  obtain ⟨a, ids, hchain, hmem, hkeys, hfirst⟩ := Table.exists_chain ht (hnext id hid) t.size
  have hlen : ids.length + 1 ≤ t.size := Table.chain_length_le acyclic hchain hkeys
  have ha : a ∉ t.jobs.filterMap Job.next := hfirst.resolve_left (by omega)
  cases ids with
  | nil =>
    rw [List.mem_singleton.mp hmem] at hid
    exact absurd hid ha
  | cons b ids =>
    obtain ⟨j, hj, hget, hn⟩ := (List.isChain_cons_cons.mp hchain).1.mem_jobs
    have hja : j.id = a := ht a j hget
    refine List.mem_flatMap.mpr ⟨j, List.mem_filter.mpr ⟨hj, ?_⟩, ?_⟩
    · simpa [hn, hja] using ha
    · rw [hja]
      exact mem_chainFrom hchain (by omega) hmem

/-! ### The check as a whole -/

/-- A table that passes the check has the ids from 1 on. -/
theorem keys_of_checkTable {t : Table} {root : JobId} (h : checkTable t = .ok root) :
    t.keys = List.range' 1 t.size := by
  have hids : checkIds 0 t.keys = .ok () := by
    rw [checkTable] at h
    cases hc : checkIds 0 t.keys with
    | ok u => rfl
    | error e =>
      cases he : t.isEmpty <;>
        simp [hc, he, bind, Except.bind, throw, throwThe, MonadExceptOf.throw] at h
  have hkeys := checkIds_eq_ok_iff.mp hids
  rwa [SortedMap.keys, List.length_map] at hkeys

/-- A sound table passes the check. -/
theorem checkTable_of_sound {t : Table} {root : JobId} (ht : t.Owned) (h : t.Sound root) :
    checkTable t = .ok root := by
  obtain ⟨j, hj, hid⟩ := h.has_root
  have hempty : t.isEmpty = false := by
    rw [SortedMap.isEmpty, List.isEmpty_eq_false_iff_exists_mem]
    obtain ⟨id, hget⟩ := Table.mem_jobs_iff.mp hj
    exact ⟨(id, j), SortedMap.mem_entries_iff.mpr hget⟩
  have hids : checkIds 0 t.keys = .ok () := by
    rw [checkIds_eq_ok_iff, h.keys]
    simp
  have hroots : (t.jobs.filter fun k => k.parent.isNone) = [j] := by
    refine List.perm_singleton.mp ((List.perm_ext_iff_of_nodup ?_ (by simp)).mpr ?_)
    · exact ht.jobs_nodup.filter _
    · intro k
      rw [List.mem_filter, Option.isNone_iff_eq_none, List.mem_singleton]
      constructor
      · intro hx
        obtain ⟨hk, hnone⟩ := hx
        exact ht.eq_of_id hk hj (((h.root_iff k hk).mp hnone).trans hid.symm)
      · rintro rfl
        exact ⟨hj, (h.root_iff k hj).mpr hid⟩
  have hjobs : checkJobs t [] t.jobs = .ok (t.jobs.filterMap Job.next) := by
    refine checkJobs_eq_ok_iff.mpr ⟨h.fits, by simp, ?_, rfl⟩
    refine List.pairwise_filterMap.mpr (ht.jobs_nodup.imp_of_mem ?_)
    rintro k l hk hl hkl n hn m hm rfl
    exact hkl (ht.eq_of_id hk hl (h.once k hk l hl n hn hm))
  have hreached : unreached t (t.jobs.filterMap Job.next) = [] := by
    refine unreached_eq_nil ht (fun id hm => ?_) h.acyclic
    obtain ⟨k, hk, hn⟩ := Table.mem_followers_iff.mp hm
    obtain ⟨l, hl, -⟩ := (h.fits k hk).next id hn
    rw [SortedMap.mem_keys_iff, hl, Option.isSome_some]
  rw [checkTable, hempty]
  simp [hids, hroots, hjobs, hreached, bind, Except.bind, pure, Except.pure, hid]

end Workflow
