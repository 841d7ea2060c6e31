import Workflow.Proofs.Plan.Linked

/-!
What the check accepts, told of the jobs of a table and of following them one by one. That no job
follows itself in the end is the same as that no way from follower to follower meets a job twice.
-/

namespace Workflow

namespace Table

variable {t : Table} {a b id root : JobId} {m n : Nat}

/-- The job to which so many followers lead from a job. -/
def onward (t : Table) (id : JobId) : (steps : Nat) → Option JobId
  | 0 => some id
  | steps + 1 => (t.onward id steps).bind fun k => (t.get? k).bind Job.next

theorem leads_of_onward (ha : t.onward id m = some a) (hb : t.onward id (m + n + 1) = some b) :
    Relation.TransGen t.Follows a b := by
  induction n generalizing b with
  | zero =>
    rw [Nat.add_zero, onward, ha, Option.bind_some] at hb
    exact .single hb
  | succ n ih =>
    obtain ⟨k, hk, hkb⟩ := Option.bind_eq_some_iff.mp hb
    exact (ih hk).tail hkb

theorem onward_of_leads (h : Relation.TransGen t.Follows a b) :
    ∃ n, t.onward a (n + 1) = some b := by
  induction h with
  | single hab => exact ⟨0, hab⟩
  | tail _ hkb ih =>
    obtain ⟨n, hn⟩ := ih
    exact ⟨n + 1, by rw [onward, hn, Option.bind_some, hkb]⟩

/-- Without cycles the same job is never met twice on a way, and only then. -/
theorem acyclic_iff_onward : (∀ id, ¬ Relation.TransGen t.Follows id id) ↔
    ∀ id m n k, t.onward id m = some k → t.onward id n = some k → m = n := by
  constructor
  · intro acyclic id m n k hm hn
    rcases Nat.lt_trichotomy m n with hlt | heq | hlt
    · obtain ⟨d, rfl⟩ := Nat.exists_eq_add_of_lt hlt
      exact absurd (leads_of_onward hm hn) (acyclic k)
    · exact heq
    · obtain ⟨d, rfl⟩ := Nat.exists_eq_add_of_lt hlt
      exact absurd (leads_of_onward hn hm) (acyclic k)
  · intro h id hcycle
    obtain ⟨n, hn⟩ := onward_of_leads hcycle
    have hzero : 0 = n + 1 := h id 0 (n + 1) id rfl hn
    omega

theorem Owned.get?_eq_some_iff (ht : t.Owned) {j : Job} :
    t.get? id = some j ↔ j ∈ t.jobs ∧ j.id = id := by
  constructor
  · intro h
    exact ⟨mem_jobs_iff.mpr ⟨id, h⟩, ht id j h⟩
  · intro hx
    obtain ⟨hj, rfl⟩ := hx
    exact ht.get? hj

theorem Owned.exists_get?_iff (ht : t.Owned) {P : Job → Prop} :
    (∃ j, t.get? id = some j ∧ P j) ↔ ∃ j ∈ t.jobs, j.id = id ∧ P j := by
  simp only [ht.get?_eq_some_iff, and_assoc]

theorem Owned.contains_iff (ht : t.Owned) : t.contains id = true ↔ ∃ j ∈ t.jobs, j.id = id := by
  simp only [SortedMap.contains, Option.isSome_iff_exists, ht.get?_eq_some_iff]

theorem jobs_length (t : Table) : t.jobs.length = t.size := by
  rw [jobs, SortedMap.values, List.length_map, SortedMap.size]

theorem Sound.exists_root (ht : t.Owned) (h : t.Sound root) :
    ∃ j ∈ t.jobs, j.id = root ∧ ∀ k ∈ t.jobs, k.parent = none ↔ k = j := by
  obtain ⟨j, hj, hid⟩ := h.has_root
  refine ⟨j, hj, hid, fun k hk => ?_⟩
  rw [h.root_iff k hk, ← hid]
  exact ⟨ht.eq_of_id hk hj, congrArg Job.id⟩

/-- The root of a sound table is its first job, which can have no parent. -/
theorem Sound.root_eq_one (ht : t.Owned) (h : t.Sound root) : root = 1 := by
  obtain ⟨j, hj, -⟩ := h.has_root
  have hpos : 0 < t.size := t.jobs_length ▸ List.length_pos_of_mem hj
  have hfirst : 1 ∈ t.jobs.map Job.id := by
    rw [ht.map_id, h.keys, List.mem_range'_1]
    omega
  obtain ⟨k, hk, hid⟩ := List.mem_map.mp hfirst
  have hnone : k.parent = none := by
    cases hpar : k.parent with
    | none => rfl
    | some o =>
      obtain ⟨hcontains, hlt⟩ := (h.fits k hk).parent o hpar
      have ho : o ∈ t.keys := SortedMap.mem_keys_iff.mpr hcontains
      rw [h.keys, List.mem_range'_1] at ho
      rw [hid] at hlt
      exact absurd hlt (Nat.not_lt.mpr ho.1)
  rw [← (h.root_iff k hk).mp hnone, hid]

end Table

/-- A table whose jobs stand under their own ids passes the check, with its first job as the root,
exactly when its ids run from 1 on, that job alone has no parent, keys pair up with values, parents
come before their jobs, branches are jobs of their own, and followers stay under one parent, follow
one job each and never come round. -/
theorem checkTable_accepts_iff {t : Table} (ht : t.Owned) (root : JobId) :
    checkTable t = .ok root ↔
      (t.jobs ≠ [] ∧ t.jobs.map Job.id = List.range' 1 t.jobs.length) ∧
      (root = 1 ∧ ∃ j ∈ t.jobs, j.id = root ∧ ∀ k ∈ t.jobs, k.parent = none ↔ k = j) ∧
      (∀ j ∈ t.jobs, j.keys.length = j.values.length) ∧
      (∀ j ∈ t.jobs, ∀ o, j.parent = some o → (∃ k ∈ t.jobs, k.id = o) ∧ o < j.id) ∧
      (∀ j ∈ t.jobs, ∀ ids, j.branches = some ids →
        ids ≠ [] ∧ ∀ b ∈ ids, ∃ k ∈ t.jobs, k.id = b ∧ k.parent = some j.id) ∧
      (∀ j ∈ t.jobs, ∀ n, j.next = some n → ∃ k ∈ t.jobs, k.id = n ∧ k.parent = j.parent) ∧
      (∀ j ∈ t.jobs, ∀ k ∈ t.jobs, ∀ n, j.next = some n → k.next = some n → j = k) ∧
      ∀ id m n k, t.onward id m = some k → t.onward id n = some k → m = n := by
  rw [checkTable_eq_ok_iff ht, ← Table.acyclic_iff_onward]
  constructor
  · intro h
    obtain ⟨j, hj, -⟩ := h.has_root
    refine ⟨⟨List.ne_nil_of_mem hj, ?_⟩, ⟨h.root_eq_one ht, h.exists_root ht⟩,
      fun k hk => (h.fits k hk).paired, fun k hk o ho => ?_, fun k hk ids hids => ?_,
      fun k hk n hn => ?_, fun k hk l hl n hkn hln => ?_, h.acyclic⟩
    · rw [ht.map_id, h.keys, t.jobs_length]
    · obtain ⟨hcontains, hlt⟩ := (h.fits k hk).parent o ho
      exact ⟨ht.contains_iff.mp hcontains, hlt⟩
    · obtain ⟨hne, hlisted⟩ := (h.fits k hk).listed ids hids
      exact ⟨hne, fun b hb => ht.exists_get?_iff.mp (hlisted b hb)⟩
    · exact ht.exists_get?_iff.mp ((h.fits k hk).next n hn)
    · exact ht.eq_of_id hk hl (h.once k hk l hl n hkn hln)
  · intro hx
    obtain ⟨⟨-, hids⟩, ⟨-, j, hj, hid, hroot⟩, hpaired, hparent, hlisted, hnext, honce, acyclic⟩ := hx
    refine ⟨?_, ⟨j, hj, hid⟩, fun k hk => ?_, fun k hk => ⟨hpaired k hk, fun o ho => ?_,
      fun ids hids => ?_, fun n hn => ?_⟩, fun k hk l hl n hkn hln => ?_, acyclic⟩
    · rw [← ht.map_id, hids, t.jobs_length]
    · rw [hroot k hk, ← hid]
      exact ⟨congrArg Job.id, ht.eq_of_id hk hj⟩
    · obtain ⟨hcontains, hlt⟩ := hparent k hk o ho
      exact ⟨ht.contains_iff.mpr hcontains, hlt⟩
    · obtain ⟨hne, hall⟩ := hlisted k hk ids hids
      exact ⟨hne, fun b hb => ht.exists_get?_iff.mpr (hall b hb)⟩
    · exact ht.exists_get?_iff.mpr (hnext k hk n hn)
    · exact congrArg Job.id (honce k hk l hl n hkn hln)

/-- Two jobs under one parent that follow each other. -/
def circle : Table :=
  Table.ofJobs [⟨1, "Notify", [], [], none, none, none⟩, ⟨2, "Notify", [], [], some 1, none, some 3⟩,
    ⟨3, "Notify", [], [], some 1, none, some 2⟩]

theorem circle_not_accepted : circle.Owned ∧ ∀ root, checkTable circle ≠ .ok root := by
  have howned : circle.Owned := Table.owned_ofJobs _
  refine ⟨howned, fun root h => ?_⟩
  obtain ⟨-, -, -, -, -, -, -, honward⟩ := (checkTable_accepts_iff howned root).mp h
  have hround : 0 = 2 := honward 2 0 2 2 rfl (by decide)
  cases hround

end Workflow
