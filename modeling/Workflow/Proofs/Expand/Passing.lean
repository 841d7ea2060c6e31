import Workflow.Proofs.Expand.Scope
import Workflow.Proofs.Forest.Table

/-!
Superworkers that are compiled by name. The call that passes on what is bound to the parameters
expands to the body where the parameters have the same values and nothing else is bound.
-/

namespace Workflow

namespace Scope

/-- The value of a name, `null` where it has none. -/
def valueOf (s : Scope) (x : String) : Value := (SortedMap.get? s x).getD .null

/-- The names with the values that they have, and nothing else. -/
def only (s : Scope) (names : List String) : Scope :=
  Scope.bind SortedMap.empty names (names.map s.valueOf)

variable {s s' : Scope} {names : List String}

theorem get?_only (x : String) :
    SortedMap.get? (s.only names) x = if x ∈ names then some (s.valueOf x) else none := by
  have hpairs : names.zip (names.map s.valueOf) = names.map fun k => (k, s.valueOf k) := by
    have hzip := List.zip_map' (f := id) (g := s.valueOf) (l := names)
    rwa [List.map_id] at hzip
  have hnames : (names.map fun k => (k, s.valueOf k)).map Prod.fst = names := by
    rw [List.map_map]
    exact List.map_id names
  have hvalues : ∀ k v, (k, v) ∈ names.map (fun k => (k, s.valueOf k)) → v = s.valueOf k := by
    intro k v h
    obtain ⟨j, -, hj⟩ := List.mem_map.mp h
    cases hj
    rfl
  rw [only, Scope.bind, hpairs, SortedMap.get?_insertAll hvalues, hnames]
  rfl

theorem Binds.get?_eq {x : String} (h : s.Binds names) (hx : x ∈ names) :
    SortedMap.get? s x = some (s.valueOf x) := by
  obtain ⟨v, hv⟩ := Option.isSome_iff_exists.mp (h x hx)
  rw [valueOf, hv, Option.getD_some]

/-- What is left of a scope that binds the names is part of it. -/
theorem Binds.only_within (h : s.Binds names) : (s.only names).Within s := by
  intro x v hv
  rw [get?_only] at hv
  by_cases hx : x ∈ names
  · rw [if_pos hx] at hv
    rw [h.get?_eq hx, hv]
  · rw [if_neg hx] at hv
    cases hv

theorem get?_only_congr {x : String} (h : SortedMap.get? s x = SortedMap.get? s' x) :
    SortedMap.get? (s.only names) x = SortedMap.get? (s'.only names) x := by
  rw [get?_only, get?_only, valueOf, valueOf, h]

end Scope

section Passing

variable {r : Registry} {s : Scope} {name : String} {d : Definition}

theorem evaluate_passing {names : List String} (h : s.Binds names) :
    evaluate s (names.map Arg.param) = .ok (names.map s.valueOf) := by
  rw [evaluate_eq_ok_iff, List.forall₂_map_left_iff, List.forall₂_map_right_iff]
  exact List.forall₂_same.mpr fun x hx => h.get?_eq hx

/-- The tree of a superworker's call by name, over the forest of its body. -/
def passedTree (name : String) (d : Definition) (s : Scope) (below : Forest) : JobTree :=
  .node (.call name) (d.parameters.map .name) (d.parameters.map s.valueOf) below

theorem expand_passing (hd : r.get? name = some d) (hs : s.Binds d.parameters) :
    expand r [] s (Node.Builder.passing name d.parameters) =
      (expand r [name] (s.only d.parameters) d.body).map fun f => [passedTree name d s f] := by
  have hkeys : argNames (d.parameters.map Arg.param) = d.parameters.map .name := by
    rw [argNames, List.map_map]
    rfl
  rw [Node.Builder.passing, Node.Builder.call, expand_superworker hd,
    if_neg (not_not.mpr (List.length_map _)), if_neg List.not_mem_nil, evaluate_passing hs, hkeys]
  change (expand r [name] (s.only d.parameters) d.body >>= _) = _
  cases expand r [name] (s.only d.parameters) d.body with
  | error e => rfl
  | ok f =>
    change Except.ok [JobTree.node _ _ _ (f ++ [])] = Except.ok [passedTree name d s f]
    rw [List.append_nil, passedTree]

/-- Compiling a superworker by name numbers the forest of its body below the one call. -/
theorem compileDefinition_eq_expand (hd : r.get? name = some d) (hs : s.Binds d.parameters) :
    compileDefinition r s name = (do
      resolveNames r (Node.Builder.passing name d.parameters)
      (expand r [name] (s.only d.parameters) d.body).map fun f =>
        (passedTree name d s f).table) := by
  rw [compileDefinition, hd]
  change compile r s _ = _
  rw [compile_eq_expand, expand_passing hd hs]
  cases resolveNames r (Node.Builder.passing name d.parameters) with
  | error e => rfl
  | ok u =>
    cases expand r [name] (s.only d.parameters) d.body with
    | error e => rfl
    | ok f => rfl

end Passing

end Workflow
