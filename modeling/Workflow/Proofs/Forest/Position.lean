import Workflow.Proofs.Data.SortedMap
import Workflow.Proofs.Forest.Basic

/-!
Where each tree of a numbered forest stands: its id, its parent and what follows it. Every job of
a table is the job of one such place, every place but the first lies directly under another, and
from this come the links between the jobs.
-/

namespace Workflow

/-- A tree with its id, its parent and its follower. -/
structure Place where
  parent : Option JobId
  next : Option JobId
  id : JobId
  tree : JobTree

mutual

/-- The place of a tree and those of all trees in it, in the order of their ids. -/
def JobTree.places (parent next : Option JobId) (id : JobId) : JobTree → List Place
  | .node kind keys values below =>
    ⟨parent, next, id, .node kind keys values below⟩ ::
      placesAll kind.chains (some id) (id + 1) below

def placesAll (chained : Bool) (parent : Option JobId) (id : JobId) : Forest → List Place
  | [] => []
  | t :: ts =>
    t.places parent (if chained then (headIds (id + t.size) ts).head? else none) id ++
      placesAll chained parent (id + t.size) ts

end

namespace JobTree

def kind : JobTree → JobKind
  | node kind _ _ _ => kind

def subtrees : JobTree → Forest
  | node _ _ _ below => below

def job (parent next : Option JobId) (id : JobId) : JobTree → Job
  | node kind keys values below =>
    ⟨id, kind.worker, keys, values, parent, kind.listed (headIds (id + 1) below), next⟩

end JobTree

namespace Place

def job (x : Place) : Job := x.tree.job x.parent x.next x.id

/-- The ids of the trees directly under a place. -/
def heads (x : Place) : List JobId := headIds (x.id + 1) x.tree.subtrees

/-- Where `t` stands under `x`, behind the trees `before` and in front of those `after` it. -/
def child (x : Place) (before : Forest) (t : JobTree) (after : Forest) : Place where
  parent := some x.id
  next :=
    if x.tree.kind.chains then (headIds (x.id + 1 + forestSize before + t.size) after).head?
    else none
  id := x.id + 1 + forestSize before
  tree := t

@[simp] theorem job_id (x : Place) : x.job.id = x.id := by
  obtain ⟨_, _, _, t⟩ := x
  cases t
  rfl

@[simp] theorem job_parent (x : Place) : x.job.parent = x.parent := by
  obtain ⟨_, _, _, t⟩ := x
  cases t
  rfl

@[simp] theorem job_next (x : Place) : x.job.next = x.next := by
  obtain ⟨_, _, _, t⟩ := x
  cases t
  rfl

theorem job_branches (x : Place) : x.job.branches = x.tree.kind.listed x.heads := by
  obtain ⟨_, _, _, t⟩ := x
  cases t
  rfl

theorem job_worker (x : Place) : x.job.worker = x.tree.kind.worker := by
  obtain ⟨_, _, _, t⟩ := x
  cases t
  rfl

end Place

mutual

theorem JobTree.number_eq_map_places (parent next : Option JobId) (id : JobId) :
    (t : JobTree) → t.number parent next id = (t.places parent next id).map Place.job
  | .node kind keys values below => by
    rw [JobTree.number, JobTree.places, List.map_cons, numberAll_eq_map_placesAll _ _ _ below]
    rfl

theorem numberAll_eq_map_placesAll (chained : Bool) (parent : Option JobId) (id : JobId) :
    (f : Forest) → numberAll chained parent id f = (placesAll chained parent id f).map Place.job
  | [] => by rw [numberAll, placesAll, List.map_nil]
  | t :: ts => by
    rw [numberAll, placesAll, List.map_append, JobTree.number_eq_map_places _ _ _ t,
      numberAll_eq_map_placesAll _ _ _ ts]

end

theorem JobTree.places_ids (parent next : Option JobId) (id : JobId) (t : JobTree) :
    (t.places parent next id).map Place.id = List.range' id t.size := by
  rw [← t.number_ids parent next id, number_eq_map_places, List.map_map]
  refine List.map_congr_left fun x _ => ?_
  exact x.job_id.symm

theorem JobTree.places_eq_cons (parent next : Option JobId) (id : JobId) (t : JobTree) :
    t.places parent next id =
      ⟨parent, next, id, t⟩ :: placesAll t.kind.chains (some id) (id + 1) t.subtrees := by
  cases t with
  | node kind keys values below => rw [JobTree.places, JobTree.kind, JobTree.subtrees]

theorem JobTree.mem_places_self (parent next : Option JobId) (id : JobId) (t : JobTree) :
    ⟨parent, next, id, t⟩ ∈ t.places parent next id := by
  rw [t.places_eq_cons]
  exact List.mem_cons_self

/-- The places in a tree in the middle of a forest are places in the forest. -/
theorem places_subset_placesAll (chained : Bool) (parent : Option JobId) (id : JobId)
    (before : Forest) (t : JobTree) (after : Forest) {x : Place}
    (hx : x ∈ t.places parent
      (if chained then (headIds (id + forestSize before + t.size) after).head? else none)
      (id + forestSize before)) :
    x ∈ placesAll chained parent id (before ++ t :: after) := by
  induction before generalizing id with
  | nil =>
    rw [List.nil_append, placesAll]
    exact List.mem_append_left _ (by simpa [forestSize] using hx)
  | cons u before ih =>
    rw [List.cons_append, placesAll]
    refine List.mem_append_right _ (ih _ ?_)
    simpa [forestSize, Nat.add_assoc] using hx

/-- The places in a tree that stands under a place of a tree are places of that tree. -/
theorem Place.places_child_subset {x : Place} {before : Forest} {t : JobTree} {after : Forest}
    (h : x.tree.subtrees = before ++ t :: after) {y : Place}
    (hy : y ∈ t.places (x.child before t after).parent (x.child before t after).next
      (x.child before t after).id) :
    y ∈ x.tree.places x.parent x.next x.id := by
  rw [JobTree.places_eq_cons]
  refine List.mem_cons_of_mem _ ?_
  rw [h]
  exact places_subset_placesAll _ _ _ before t after hy

mutual

theorem JobTree.places_places {parent next : Option JobId} {id : JobId} {x y : Place} :
    (t : JobTree) → x ∈ t.places parent next id → y ∈ x.tree.places x.parent x.next x.id →
      y ∈ t.places parent next id
  | .node kind keys values below, hx, hy => by
    rw [JobTree.places] at hx
    rcases List.mem_cons.mp hx with rfl | hx
    · exact hy
    · rw [JobTree.places]
      exact List.mem_cons_of_mem _ (placesAll_places below hx hy)

/-- The places under a place of a forest are places of the forest. -/
theorem placesAll_places {chained : Bool} {parent : Option JobId} {id : JobId} {x y : Place} :
    (f : Forest) → x ∈ placesAll chained parent id f → y ∈ x.tree.places x.parent x.next x.id →
      y ∈ placesAll chained parent id f
  | [], hx, _ => by simp [placesAll] at hx
  | t :: ts, hx, hy => by
    rw [placesAll] at hx ⊢
    rcases List.mem_append.mp hx with hx | hx
    · exact List.mem_append_left _ (JobTree.places_places t hx hy)
    · exact List.mem_append_right _ (placesAll_places ts hx hy)

end

theorem JobTree.child_mem_places {root : JobTree} {parent next : Option JobId} {id : JobId}
    {x : Place} (hx : x ∈ root.places parent next id) {before : Forest} {t : JobTree}
    {after : Forest} (h : x.tree.subtrees = before ++ t :: after) :
    x.child before t after ∈ root.places parent next id :=
  root.places_places hx (Place.places_child_subset h (t.mem_places_self _ _ _))

mutual

theorem JobTree.places_cases {parent next : Option JobId} {id : JobId} {y : Place} :
    (t : JobTree) → y ∈ t.places parent next id → y = ⟨parent, next, id, t⟩ ∨
      ∃ x ∈ t.places parent next id, ∃ before u after,
        x.tree.subtrees = before ++ u :: after ∧ y = x.child before u after
  | .node kind keys values below, hy => by
    have hy' := hy
    rw [JobTree.places] at hy'
    rcases List.mem_cons.mp hy' with rfl | hy'
    · exact .inl rfl
    · exact .inr (placesAll_cases [] below
        (JobTree.mem_places_self parent next id (.node kind keys values below)) rfl
        (by simpa [forestSize, JobTree.kind] using hy'))

/-- Every place in the forest under a place lies directly under some place. -/
theorem placesAll_cases {root : JobTree} {parent next : Option JobId} {id : JobId} {x y : Place}
    (before : Forest) :
    (f : Forest) → x ∈ root.places parent next id → x.tree.subtrees = before ++ f →
      y ∈ placesAll x.tree.kind.chains (some x.id) (x.id + 1 + forestSize before) f →
      ∃ z ∈ root.places parent next id, ∃ before u after,
        z.tree.subtrees = before ++ u :: after ∧ y = z.child before u after
  | [], _, _, hy => by simp [placesAll] at hy
  | t :: ts, hx, hbelow, hy => by
    rw [placesAll] at hy
    rcases List.mem_append.mp hy with hy | hy
    · rcases JobTree.places_cases t hy with rfl | ⟨z, hz, w⟩
      · exact ⟨x, hx, before, t, ts, hbelow, rfl⟩
      · have hchild := JobTree.child_mem_places hx hbelow
        exact ⟨z, root.places_places hchild hz, w⟩
    · refine placesAll_cases (before ++ [t]) ts hx (by simpa using hbelow) ?_
      simpa [forestSize_append, forestSize, Nat.add_assoc] using hy

end

end Workflow
