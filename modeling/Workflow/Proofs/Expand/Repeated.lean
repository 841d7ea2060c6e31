import Workflow.Proofs.Expand.Inlining
import Workflow.Proofs.Expand.Scope
import Workflow.Proofs.Expand.Spot
import Workflow.Proofs.Forest.Elsewhere
import Workflow.Proofs.Plan.PreOrder

/-!
Calls of one superworker with the same values. The body sees the values and nothing of what is
around the call, so the same jobs stand under each of the calls, with ids that count from the call's
own.
-/

namespace Workflow

/-! ### What stands under a job -/

/-- The jobs under a job, in the order of their ids. -/
def Plan.below (p : Plan) (id : JobId) : List Job :=
  ((p.subtree id).filter (· ≠ id)).filterMap p.get?

theorem JobTree.number_eq_cons (parent next : Option JobId) (id : JobId) (t : JobTree) :
    t.number parent next id =
      t.job parent next id :: numberAll t.kind.chains (some id) (id + 1) t.subtrees := by
  cases t with
  | node kind keys values below => rw [number, job, JobTree.kind, subtrees]

section Below

variable {p : Plan} {root : JobTree} {x : Place}

theorem get?_of_mem_number (hp : p.table = root.table) (hx : x ∈ root.sites) {j : Job}
    (hj : j ∈ x.tree.number x.parent x.next x.id) : p.get? j.id = some j := by
  rw [JobTree.number_eq_map_places] at hj
  obtain ⟨y, hy, rfl⟩ := List.mem_map.mp hj
  have hsite : y ∈ root.sites := root.places_places hx hy
  rw [Place.job_id, Plan.get?_site hp hsite]

theorem below_site (hp : p.table = root.table) (hx : x ∈ root.sites) :
    p.below x.id = numberAll x.tree.kind.chains (some x.id) (x.id + 1) x.tree.subtrees := by
  have hids : (p.subtree x.id).filter (· ≠ x.id) =
      List.range' (x.id + 1) (forestSize x.tree.subtrees) := by
    rw [Plan.subtree_site hp hx, JobTree.size_eq, List.range'_succ,
      List.filter_cons_of_neg (by simp)]
    apply List.filter_eq_self.mpr
    intro k hk
    have hlt := List.left_le_of_mem_range' hk
    simp
    lia
  have hself : ∀ j ∈ numberAll x.tree.kind.chains (some x.id) (x.id + 1) x.tree.subtrees,
      (p.get? ∘ Job.id) j = some j := by
    intro j hj
    apply get?_of_mem_number hp hx
    rw [JobTree.number_eq_cons]
    exact List.mem_cons_of_mem _ hj
  rw [Plan.below, hids, ← numberAll_ids x.tree.kind.chains (some x.id), List.filterMap_map,
    List.filterMap_congr hself, List.filterMap_some]

end Below

/-! ### Calls in a compiled plan -/

/-- A call of a superworker without a block of its own stands in a compiled plan: its arguments have
the values `values`, and the job has the id behind those taken. -/
inductive Plan.CallsAt (r : Registry) (p : Plan) (name : String) (values : List Value) :
    JobId → Prop
  | intro {args s : Scope} {n : Node} {opened : List String} {given : List Arg} {span : Span}
      {parent : Option JobId} {last : JobId} (hp : compile r args n = .ok p.table)
      (hy : Spot.Visits r (Spot.start args n)
        ⟨⟨opened, s, .call name given none span⟩, parent, last⟩)
      (hv : evaluate s given = .ok values) : p.CallsAt r name values (last + 1)

namespace Plan.CallsAt

variable {r : Registry} {p p' : Plan} {name : String} {values : List Value} {id id' : JobId}
  {d : Definition}

/-- The call's tree stands at its id, over the forest of the body with the values bound. -/
theorem site (h : p.CallsAt r name values id) (hd : r.get? name = some d) :
    ∃ (root : JobTree) (parent next : Option JobId) (keys : List ArgKey) (f : Forest)
      (opened : List String), p.table = root.table ∧
      ⟨parent, next, id, .node (.call name) keys values f⟩ ∈ root.sites ∧
      Expands r opened (Scope.bind SortedMap.empty d.parameters values) d.body f := by
  cases h with
  | @intro args s n opened given span parent last hp hy hv =>
    obtain ⟨root, ht, hstart⟩ := Spot.stands_start hp
    obtain ⟨f, hf, hholds⟩ := hy.stands hstart
    obtain ⟨g, k, hg, hk, rfl⟩ := expand_superworker_parts hd hv hf
    cases hk
    rw [List.append_nil] at hholds
    obtain ⟨next, hx⟩ := hholds [] _ [] rfl
    exact ⟨root, parent, next, argNames given, g, name :: opened, ht, hx,
      expand_eq_ok_iff.mp hg⟩

/-- The job at the id is that of the call. -/
theorem job (h : p.CallsAt r name values id) (hd : r.get? name = some d) :
    ∃ j, p.get? id = some j ∧ j.worker = name ∧ j.values = values := by
  obtain ⟨root, parent, next, keys, f, opened, hp, hx, -⟩ := h.site hd
  exact ⟨_, Plan.get?_site hp hx, rfl, rfl⟩

/-- Counted from the call, what stands under it is the forest of the body. -/
theorem below_lowered (h : p.CallsAt r name values id) (hd : r.get? name = some d) :
    ∃ f opened, Expands r opened (Scope.bind SortedMap.empty d.parameters values) d.body f ∧
      (p.below id).map (Job.lowered id) = numberAll true (some 0) 1 f := by
  obtain ⟨root, parent, next, keys, f, opened, hp, hx, hf⟩ := h.site hd
  have hbelow : p.below id = numberAll true (some id) (1 + id) f := by
    rw [Nat.add_comm]
    exact below_site hp hx
  refine ⟨f, opened, hf, ?_⟩
  rw [hbelow, numberAll_lowered, Option.map_some, Nat.sub_self]

end Plan.CallsAt

/-- Two calls of a superworker with the same values stand in their plans as jobs of that name with
those values, and under them the same jobs stand, each id counted from the call's own, wherever the
calls are and however their arguments are written. -/
theorem calls_alike {r : Registry} {p p' : Plan} {name : String} {d : Definition}
    {values : List Value} {id id' : JobId} (hd : r.get? name = some d)
    (h : p.CallsAt r name values id) (h' : p'.CallsAt r name values id') :
    (∃ j, p.get? id = some j ∧ j.worker = name ∧ j.values = values) ∧
    (∃ j, p'.get? id' = some j ∧ j.worker = name ∧ j.values = values) ∧
    (p.below id).map (Job.lowered id) = (p'.below id').map (Job.lowered id') := by
  obtain ⟨f, opened, hf, hbelow⟩ := h.below_lowered hd
  obtain ⟨f', opened', hf', hbelow'⟩ := h'.below_lowered hd
  refine ⟨h.job hd, h'.job hd, ?_⟩
  rw [hbelow, hbelow', hf.unique hf']

/-- A call with a value that is written out. -/
def writtenCall : Node := .call "Escalate" [.literal "team" (.string "a")] none Span.zero

/-- A call with a value that has another name where it stands. -/
def namedCall : Node := .call "Escalate" [.keyed "to" "group"] none Span.zero

/-- The call in the block of another. -/
def nestedCall : Node := .call "Log" [.keyed "who" "group"] (some namedCall) Span.zero

def groupArgs : Scope := SortedMap.ofList [("group", .string "a")]

theorem plan_of_isOk {r : Registry} {args : Scope} {n : Node}
    (h : (compile r args n).isOk = true) : ∃ p : Plan, compile r args n = .ok p.table := by
  cases ht : compile r args n with
  | error e =>
    rw [ht] at h
    cases h
  | ok t => exact ⟨⟨t, 1, checkTable_compiled ht⟩, rfl⟩

theorem nestedCall_alike : ∃ p p' : Plan, p.CallsAt escalation "Escalate" [.string "a"] 1 ∧
    p'.CallsAt escalation "Escalate" [.string "a"] 2 ∧
    (∃ j, p'.get? 2 = some j ∧ j.worker = "Escalate" ∧ j.values = [.string "a"]) ∧
    (p.below 1).map (Job.lowered 1) = (p'.below 2).map (Job.lowered 2) := by
  obtain ⟨p, hp⟩ : ∃ p : Plan, compile escalation SortedMap.empty writtenCall = .ok p.table :=
    plan_of_isOk (by cbv)
  obtain ⟨p', hp'⟩ : ∃ p : Plan, compile escalation groupArgs nestedCall = .ok p.table :=
    plan_of_isOk (by cbv)
  have hwritten : p.CallsAt escalation "Escalate" [.string "a"] 1 := .intro hp .refl rfl
  have hnested : p'.CallsAt escalation "Escalate" [.string "a"] 2 :=
    .intro hp' (.single (.block rfl)) rfl
  obtain ⟨-, hjob, hbelow⟩ := calls_alike rfl hwritten hnested
  exact ⟨p, p', hwritten, hnested, hjob, hbelow⟩

end Workflow
