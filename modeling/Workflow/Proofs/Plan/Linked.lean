import Mathlib.Data.List.Pairwise
import Workflow.Proofs.Plan.Branching

/-!
What the check guarantees of every table whose jobs stand under their own ids, and what it leaves
open: a job may be linked several times, or not at all.
-/

namespace Workflow

namespace Table

variable {t : Table} {root a b id : JobId}

theorem Owned.insertAll (ht : t.Owned) (js : List Job) :
    Owned (SortedMap.insertAll t (js.map fun j => (j.id, j))) := by
  induction js generalizing t with
  | nil => exact ht
  | cons j js ih =>
    refine ih fun id k hk => ?_
    rw [SortedMap.get?_insert] at hk
    split at hk
    · rename_i hid
      rw [← Option.some.inj hk, hid]
    · exact ht id k hk

/-- Jobs that are put into a table by their ids stand under these. -/
theorem owned_ofJobs (js : List Job) : (ofJobs js).Owned :=
  Owned.insertAll (t := SortedMap.empty) (fun _ _ h => by cases h) js

/-- What is found by following a chain stands on it. -/
theorem leads_of_mem_chainFrom {steps : Nat} (h : b ∈ chainFrom t steps a) :
    Relation.ReflTransGen t.Follows a b := by
  induction steps generalizing a with
  | zero =>
    obtain rfl := List.mem_singleton.mp h
    exact .refl
  | succ steps ih =>
    rw [chainFrom] at h
    split at h
    · obtain rfl := List.mem_singleton.mp h
      exact .refl
    · rename_i n hn
      rcases List.mem_cons.mp h with rfl | h
      · exact .refl
      · exact (ih h).head hn

/-- Where no two jobs lead to the same one, nothing leads from outside into a cycle. -/
theorem cyclic_of_leads (inj : ∀ x y z, t.Follows x z → t.Follows y z → x = y)
    (hcycle : Relation.TransGen t.Follows id id) (h : Relation.ReflTransGen t.Follows a id) :
    Relation.TransGen t.Follows a a := by
  induction h using Relation.ReflTransGen.head_induction_on with
  | refl => exact hcycle
  | @head x y hxy _ ih =>
    obtain ⟨z, hyz, hzy⟩ := Relation.TransGen.tail'_iff.mp ih
    obtain rfl := inj x z y hxy hzy
    exact Relation.TransGen.head' hxy hyz

/-- Where every follower is found from a first job, there are no cycles. -/
theorem acyclic_of_unreached
    (inj : ∀ x y z, t.Follows x z → t.Follows y z → x = y)
    (h : unreached t (t.jobs.filterMap Job.next) = []) (id : JobId) :
    ¬ Relation.TransGen t.Follows id id := by
  intro hcycle
  have follower : ∀ k, Relation.TransGen t.Follows k k → k ∈ t.jobs.filterMap Job.next := by
    intro k hk
    obtain ⟨q, -, hqk⟩ := Relation.TransGen.tail'_iff.mp hk
    obtain ⟨j, hj, -, hn⟩ := hqk.mem_jobs
    exact mem_followers_iff.mpr ⟨j, hj, hn⟩
  have hreached := List.filter_eq_nil_iff.mp h id (follower id hcycle)
  rw [decide_eq_true_eq, not_not] at hreached
  obtain ⟨f, hf, hchain⟩ := List.mem_flatMap.mp hreached
  have hfirst : f.id ∉ t.jobs.filterMap Job.next := by
    have hf := (List.mem_filter.mp hf).2
    rw [Bool.and_eq_true, decide_eq_true_eq] at hf
    exact hf.2
  exact hfirst (follower f.id (cyclic_of_leads inj hcycle (leads_of_mem_chainFrom hchain)))

end Table

/-- What passes the check has one job without a parent, fitting jobs, and followers that chains
from first jobs lead to. -/
theorem jobs_of_checkTable {t : Table} {root : JobId} (h : checkTable t = .ok root) :
    ∃ j followers, (t.jobs.filter fun k => k.parent.isNone) = [j] ∧ j.id = root ∧
      checkJobs t [] t.jobs = .ok followers ∧ unreached t followers = [] := by
  rw [checkTable] at h
  cases hempty : t.isEmpty with
  | true => simp [hempty, bind, Except.bind, throw, throwThe, MonadExceptOf.throw] at h
  | false =>
    cases hids : checkIds 0 t.keys with
    | error e => simp [hempty, hids, bind, Except.bind] at h
    | ok u =>
      simp only [hempty, hids, bind, Except.bind, Bool.false_eq_true, if_false] at h
      split at h
      · rename_i j hroots
        cases hjobs : checkJobs t [] t.jobs with
        | error e => simp [hjobs] at h
        | ok followers =>
          simp only [hjobs] at h
          split at h
          · rename_i hreached
            exact ⟨j, followers, hroots, Except.ok.inj h, rfl, hreached⟩
          · cases h
      · cases h

/-- A table whose jobs stand under their own ids passes the check exactly when it is sound. -/
theorem checkTable_eq_ok_iff {t : Table} {root : JobId} (ht : t.Owned) :
    checkTable t = .ok root ↔ t.Sound root := by
  refine ⟨fun h => ?_, checkTable_of_sound ht⟩
  obtain ⟨j, followers, hroots, rfl, hjobs, hreached⟩ := jobs_of_checkTable h
  obtain ⟨hfits, -, honce, rfl⟩ := checkJobs_eq_ok_iff.mp hjobs
  rw [List.nil_append] at hreached
  have hroot : ∀ k ∈ t.jobs, k.parent = none ↔ k = j := by
    intro k hk
    rw [← List.mem_singleton (b := j), ← hroots, List.mem_filter, Option.isNone_iff_eq_none]
    exact ⟨fun hp => ⟨hk, hp⟩, And.right⟩
  have hj : j ∈ t.jobs := (List.mem_filter.mp (hroots ▸ List.mem_singleton_self j)).1
  have once : ∀ k ∈ t.jobs, ∀ l ∈ t.jobs, ∀ n, k.next = some n → l.next = some n →
      k.id = l.id := by
    intro k hk l hl n hkn hln
    by_contra hne
    have : Std.Symm fun a b : Job =>
        ∀ n, a.next = some n → ∀ m, b.next = some m → n ≠ m :=
      ⟨fun _ _ hab n hn m hm => (hab m hm n hn).symm⟩
    have hkl := (List.pairwise_filterMap.mp honce).forall hk hl fun he => hne (congrArg Job.id he)
    exact hkl n hkn n hln rfl
  have inj : ∀ x y z, t.Follows x z → t.Follows y z → x = y := by
    intro x y z hx hy
    obtain ⟨k, hk, hkx, hkn⟩ := hx.mem_jobs
    obtain ⟨l, hl, hly, hln⟩ := hy.mem_jobs
    rw [← ht x k hkx, ← ht y l hly]
    exact once k hk l hl z hkn hln
  exact {
    keys := keys_of_checkTable h
    has_root := ⟨j, hj, rfl⟩
    root_iff := fun k hk => (hroot k hk).trans ⟨congrArg Job.id, ht.eq_of_id hk hj⟩
    fits := hfits
    once := once
    acyclic := Table.acyclic_of_unreached inj hreached }

namespace Plan

variable {p : Plan} {c o : JobId}

/-- Jobs stand under one another, and links stay where they belong. -/
structure Nested (p : Plan) : Prop where
  root : p.root ∈ p.ids
  parent_none : ∀ id ∈ p.ids, p.parent? id = none ↔ id = p.root
  parent : ∀ c o, p.parent? c = some o → o ∈ p.ids ∧ o < c
  branch : ∀ o, ∀ b ∈ p.branches o, p.parent? b = some o
  next : ∀ q n, p.next? q = some n → n ∈ p.ids ∧ p.parent? n = p.parent? q
  next_inj : ∀ q q' n, p.next? q = some n → p.next? q' = some n → q = q'
  next_self : ∀ q, p.next? q ≠ some q

theorem parent?_of_first (ht : p.table.Owned) (h : entry? p o = some c) :
    p.parent? c = some o := by
  unfold entry? at h
  split at h
  · split at h
    · obtain ⟨k, hk, rfl⟩ := Option.map_eq_some_iff.mp h
      have hpar : k.parent = some o := by simpa using List.find?_some hk
      rw [parent?, get?, ht.get? (List.mem_of_find?_eq_some hk), Option.bind_some, hpar]
    · cases h
  · cases h

/-- Every plan is nested whose jobs stand under their own ids. -/
theorem nested_of_owned (ht : p.table.Owned) : p.Nested := by
  have h := (checkTable_eq_ok_iff ht).mp p.accepted
  have fits : ∀ {id j}, p.get? id = some j → j ∈ p.table.jobs ∧ j.id = id ∧ p.table.Fits j := by
    intro id j hj
    have hmem := Table.mem_jobs_iff.mpr ⟨id, hj⟩
    exact ⟨hmem, ht id j hj, h.fits j hmem⟩
  have parent?_of_get? : ∀ {id j}, p.get? id = some j → p.parent? id = j.parent := by
    intro id j hj
    rw [parent?, hj, Option.bind_some]
  constructor
  case root =>
    obtain ⟨j, hj, hid⟩ := h.has_root
    exact hid ▸ mem_ids_of_get? (ht.get? hj)
  case parent_none =>
    intro id hid
    obtain ⟨j, hj⟩ := Option.isSome_iff_exists.mp (get?_isSome.mpr hid)
    obtain ⟨hmem, rfl, -⟩ := fits hj
    rw [parent?_of_get? hj, h.root_iff j hmem]
  case parent =>
    intro c o hc
    obtain ⟨j, hj, ho⟩ := Option.bind_eq_some_iff.mp hc
    obtain ⟨-, rfl, hfit⟩ := fits hj
    obtain ⟨hcontains, hlt⟩ := hfit.parent o ho
    exact ⟨get?_isSome.mp hcontains, hlt⟩
  case branch =>
    intro o b hb
    rw [branches] at hb
    split at hb
    · cases hb
    · rename_i j hj
      obtain ⟨-, rfl, hfit⟩ := fits hj
      cases hbr : j.branches with
      | none =>
        rw [hbr, Option.getD_none, Option.mem_toList] at hb
        exact parent?_of_first ht hb
      | some ids =>
        rw [hbr, Option.getD_some] at hb
        obtain ⟨k, hk, hpar⟩ := (hfit.listed ids hbr).2 b hb
        rw [parent?_of_get? hk, hpar]
  case next =>
    intro q n hq
    obtain ⟨j, hj, hn⟩ := Option.bind_eq_some_iff.mp hq
    obtain ⟨k, hk, hpar⟩ := (fits hj).2.2.next n hn
    exact ⟨mem_ids_of_get? hk, by rw [parent?_of_get? hk, hpar, parent?_of_get? hj]⟩
  case next_inj =>
    intro q q' n hq hq'
    obtain ⟨j, hj, hn⟩ := Option.bind_eq_some_iff.mp hq
    obtain ⟨k, hk, hn'⟩ := Option.bind_eq_some_iff.mp hq'
    obtain ⟨hmem, rfl, -⟩ := fits hj
    obtain ⟨hmem', rfl, -⟩ := fits hk
    exact h.once j hmem k hmem' n hn hn'
  case next_self => exact fun q hq => h.acyclic q (.single hq)

/-! ### Links -/

/-- What a job leads to: its branches, and the job that follows it. -/
def links (p : Plan) (id : JobId) : List JobId := p.branches id ++ (p.next? id).toList

theorem mem_links_iff {k id : JobId} :
    k ∈ p.links id ↔ k ∈ p.branches id ∨ p.next? id = some k := by
  rw [links, List.mem_append, Option.mem_toList]

/-- Jobs that links lead to from the root. -/
inductive Reached (p : Plan) : JobId → Prop where
  | root : Reached p p.root
  | link {o c : JobId} (h : Reached p o) (hc : c ∈ p.links o) : Reached p c

/-- Of what is reached, no job is linked twice, and none links back to the root. -/
structure LinkedOnce (p : Plan) : Prop where
  root : ∀ o, p.Reached o → p.root ∉ p.links o
  nodup : ∀ o, p.Reached o → (p.links o).Nodup
  owner : ∀ o o' c, p.Reached o → p.Reached o' → c ∈ p.links o → c ∈ p.links o' → o = o'

theorem Nested.mem_ids (hp : p.Nested) (h : p.Reached c) : c ∈ p.ids := by
  cases h with
  | root => exact hp.root
  | link _ hc =>
    rcases mem_links_iff.mp hc with hb | hn
    · exact mem_ids_of_parent? (hp.branch _ c hb)
    · exact (hp.next _ c hn).1

theorem Nested.root_not_linked (hp : p.Nested) (o : JobId) : p.root ∉ p.links o := by
  intro hlink
  have hroot := (hp.parent_none p.root hp.root).mpr rfl
  rcases mem_links_iff.mp hlink with hb | hn
  · rw [hp.branch o _ hb] at hroot
    cases hroot
  · have hpar := (hp.next o _ hn).2
    rw [hroot] at hpar
    obtain rfl := (hp.parent_none o (mem_ids_of_next? hn)).mp hpar.symm
    exact hp.next_self _ hn

/-- What the check leaves open: a job may list a branch twice, and a branch may also follow a
job. -/
theorem Nested.linkedOnce_iff (hp : p.Nested) : p.LinkedOnce ↔
    ∀ o, p.Reached o → (p.branches o).Nodup ∧
      ∀ b ∈ p.branches o, ∀ q, p.Reached q → p.next? q ≠ some b := by
  constructor
  · intro h o ho
    refine ⟨(List.nodup_append.mp (h.nodup o ho)).1, fun b hb q hq hn => ?_⟩
    obtain rfl := h.owner o q b ho hq (mem_links_iff.mpr (.inl hb)) (mem_links_iff.mpr (.inr hn))
    have hdisjoint := (List.nodup_append.mp (h.nodup o ho)).2.2
    exact hdisjoint b hb b (Option.mem_toList.mpr hn) rfl
  · intro h
    constructor
    case root => exact fun o _ => hp.root_not_linked o
    case nodup =>
      intro o ho
      obtain ⟨hnodup, hne⟩ := h o ho
      have hnext : (p.next? o).toList.Nodup := by cases p.next? o <;> simp
      refine List.nodup_append.mpr ⟨hnodup, hnext, fun b hb n hn he => ?_⟩
      exact hne b hb o ho (he ▸ Option.mem_toList.mp hn)
    case owner =>
      intro o o' c ho ho' hc hc'
      rcases mem_links_iff.mp hc with hb | hn <;> rcases mem_links_iff.mp hc' with hb' | hn'
      · have hpar := hp.branch o c hb
        rw [hp.branch o' c hb'] at hpar
        exact (Option.some.inj hpar).symm
      · exact absurd hn' ((h o ho).2 c hb o' ho')
      · exact absurd hn ((h o' ho').2 c hb' o ho)
      · exact hp.next_inj o o' c hn hn'

theorem owned_of_compile {r : Registry} {args : Scope} {n : Node}
    (h : compile r args n = .ok p.table) : p.table.Owned := by
  obtain ⟨root, ht, -⟩ := tree_of_compile h
  exact ht ▸ root.table_owned

/-- Compiled plans link no job twice. -/
theorem linkedOnce_of_compile {r : Registry} {args : Scope} {n : Node}
    (h : compile r args n = .ok p.table) : p.LinkedOnce := by
  have hp := branching_of_compile h
  refine (nested_of_owned (owned_of_compile h)).linkedOnce_iff.mpr fun o _ => ?_
  exact ⟨hp.nodup o, fun b hb q _ => hp.branch_ne_next o b hb q⟩

end Plan

end Workflow
