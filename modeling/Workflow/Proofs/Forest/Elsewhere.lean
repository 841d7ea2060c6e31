import Workflow.Proofs.Forest.Links

/-!
Forests that stand elsewhere. A forest that is numbered from a later id has the same jobs, with
every id in them later by as much. And what runs below the first job of a table depends on the
forest that stands there, whatever the first job is.
-/

namespace Workflow

/-- A job with every id in it lowered by `k`. -/
def Job.lowered (k : Nat) (j : Job) : Job :=
  { j with
    id := j.id - k
    parent := j.parent.map (· - k)
    branches := j.branches.map (List.map (· - k))
    next := j.next.map (· - k) }

theorem JobKind.listed_map (kind : JobKind) (heads : List JobId) (g : JobId → JobId) :
    (kind.listed heads).map (List.map g) = kind.listed (heads.map g) := by
  cases kind with
  | call worker => cases heads <;> rfl
  | batch => cases heads <;> rfl
  | branch => rfl

theorem headIds_lowered (k id : JobId) (f : Forest) :
    (headIds (id + k) f).map (· - k) = headIds id f := by
  induction f generalizing id with
  | nil => rfl
  | cons t f ih =>
    have hrest : id + k + t.size = id + t.size + k := Nat.add_right_comm id k t.size
    rw [headIds, headIds, List.map_cons, Nat.add_sub_cancel, hrest, ih]

mutual

theorem JobTree.number_lowered (k : Nat) (parent next : Option JobId) (id : JobId) :
    (t : JobTree) → (t.number parent next (id + k)).map (Job.lowered k) =
      t.number (parent.map (· - k)) (next.map (· - k)) id
  | .node kind keys values below => by
    have hbelow := numberAll_lowered k kind.chains (some (id + k)) (id + 1) below
    have hself : (some (id + k)).map (· - k) = some id := by simp
    rw [hself, Nat.add_right_comm] at hbelow
    have hheads : (headIds (id + k + 1) below).map (· - k) = headIds (id + 1) below := by
      rw [Nat.add_right_comm, headIds_lowered]
    rw [JobTree.number, JobTree.number, List.map_cons, hbelow, Job.lowered, JobKind.listed_map,
      hheads, Nat.add_sub_cancel]

theorem numberAll_lowered (k : Nat) (chained : Bool) (parent : Option JobId) (id : JobId) :
    (f : Forest) → (numberAll chained parent (id + k) f).map (Job.lowered k) =
      numberAll chained (parent.map (· - k)) id f
  | [] => by rw [numberAll, numberAll, List.map_nil]
  | t :: ts => by
    have hrest : id + k + t.size = id + t.size + k := Nat.add_right_comm id k t.size
    have hnext : (if chained then (headIds (id + k + t.size) ts).head? else none).map (· - k) =
        if chained then (headIds (id + t.size) ts).head? else none := by
      cases chained with
      | false => rfl
      | true =>
        rw [if_pos rfl, if_pos rfl, ← List.head?_map, hrest, headIds_lowered]
    rw [numberAll, numberAll, List.map_append, JobTree.number_lowered k _ _ id t, hnext, hrest,
      numberAll_lowered k chained parent (id + t.size) ts]

end

/-! ### Tables with the same forest below the first job -/

/-- Two tables with the same ids, and with the same job under each id but the first. -/
structure Table.SameLater (t u : Table) : Prop where
  keys : SortedMap.keys u = SortedMap.keys t
  later : ∀ id, id ≠ 1 → SortedMap.get? u id = SortedMap.get? t id

namespace JobTree

variable {kind kind' : JobKind} {keys keys' : List ArgKey} {values values' : List Value}
  {below : Forest}

theorem table_first : (node kind keys values below).table.get? 1 =
    some ⟨1, kind.worker, keys, values, none, kind.listed (headIds 2 below), none⟩ :=
  table_get? (root_mem_sites _)

theorem table_sameLater (hc : kind.chains = kind'.chains) :
    (node kind keys values below).table.SameLater (node kind' keys' values' below).table where
  keys := by
    rw [table_keys, table_keys, size, size]
  later := by
    intro id hid
    rw [SortedMap.get?, SortedMap.get?, table_entries, table_entries, number, number, hc,
      List.map_cons, List.map_cons, Entries.get?, Entries.get?, if_neg hid, if_neg hid]

end JobTree

end Workflow
