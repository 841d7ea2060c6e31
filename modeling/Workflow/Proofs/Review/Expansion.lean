import Workflow.Proofs.Data.SortedMap
import Workflow.Proofs.Expand.Point
import Workflow.Proofs.Forest.Rules
import Workflow.Proofs.Review.Sound

/-!
What a review is good for. Where a review finds no error in a tree and in the definitions of the
registry, the expansion of the tree fails only for values of the wrong form, for a wrong number of
arguments or for a cycle of calls.
-/

namespace Workflow

/-- A fault that no review looks for. -/
def CompileError.Unreviewed : CompileError → Prop
  | .lengthMismatch _ _ _ => True
  | .notAList _ _ => True
  | .arityMismatch _ _ _ => True
  | .recursive _ => True
  | .unknownWorker _ => False
  | .unbound _ => False
  | .misshapen _ => False

/-! ### Scopes that bind what is read -/

namespace Scope

/-- Every name of a list has a value. -/
def Binds (s : Scope) (bound : List String) : Prop :=
  ∀ x ∈ bound, (SortedMap.get? s x).isSome = true

/-- Binding names in turn binds them all and takes none away. -/
theorem Binds.bind {s : Scope} {bound names : List String} {values : List Value}
    (h : s.Binds bound) (hlen : names.length = values.length) :
    (s.bind names values).Binds (names ++ bound) := by
  have hkeys : (names.zip values).map Prod.fst = names := List.map_fst_zip (Nat.le_of_eq hlen)
  intro x hx
  rw [Scope.bind, SortedMap.get?_insertAll_isSome, hkeys]
  rcases List.mem_append.mp hx with hx | hx
  · exact .inr hx
  · exact .inl (h x hx)

theorem binds_nil (s : Scope) : s.Binds [] := by simp [Binds]

end Scope

/-! ### The expansion of sound trees -/

/-- Every row of a batch has an element for each of its bindings. -/
theorem length_of_mem_rows {s : Scope} {bindings : List Binding} {lists : List (List Value)}
    {count : Nat} (hl : batchLists s bindings = .ok lists)
    (hc : checkLengths count bindings lists = .ok ()) :
    ∀ row ∈ rows count lists, bindings.length = row.length := by
  have hlen := (batchLists_eq_ok_iff.mp hl).length_eq
  have hcount := (checkLengths_eq_ok_iff hlen).mp hc
  rw [rows_eq_elementsAt]
  intro row hrow
  obtain ⟨k, hk, rfl⟩ := List.mem_map.mp hrow
  rw [elementsAt_length (List.mem_range.mp hk) hcount, hlen]

namespace Point

variable {r : Registry} {x y : Point} {e : CompileError}

/-- The tree is sound where names are bound that are bound at the point. -/
def Sound (r : Registry) (x : Point) : Prop :=
  ∃ bound, x.node.Sound r bound ∧ x.scope.Binds bound

theorem Sound.enters (hx : x.Sound r) (h : x.Enters r y)
    (hr : ∀ name d, x.node.LeadsTo r name → r.get? name = some d → d.body.Sound r d.parameters) :
    y.Sound r := by
  obtain ⟨bound, hn, hs⟩ := hx
  cases h with
  | step hm => exact ⟨bound, (Node.sound_sequence_iff.mp hn).2 _ hm, hs⟩
  -- Only here does the scope grow: every element of the batch has a value in each row.
  | @row opened s bindings body span lists row hl hc hrow =>
    obtain ⟨-, -, hbody⟩ := Node.sound_batch_iff.mp hn
    have hlen : (bindings.map Binding.element).length = row.length := by
      rw [List.length_map, length_of_mem_rows hl hc row hrow]
    exact ⟨_, hbody, hs.bind hlen⟩
  | block =>
    obtain ⟨-, -, hblock⟩ := Node.sound_call_iff.mp hn
    exact ⟨bound, hblock _ rfl, hs⟩
  -- The body sees its parameters and nothing that is bound around the call.
  | @body opened s name args nested span d values hd hlen ho hv =>
    have hvalues : d.parameters.length = values.length := by
      rw [← (evaluate_eq_ok_iff.mp hv).length_eq, hlen]
    have hinner := (Scope.binds_nil SortedMap.empty).bind hvalues
    rw [List.append_nil] at hinner
    have hcall : Reaches r (.call name args nested span) (.call name args nested span) :=
      .inside (Node.mem_all_self _)
    exact ⟨d.parameters, hr name d ⟨args, nested, span, hcall⟩ hd, hinner⟩

theorem Visits.sound (h : x.Visits r y) (hx : x.Sound r)
    (hr : ∀ name d, x.node.LeadsTo r name → r.get? name = some d → d.body.Sound r d.parameters) :
    y.Sound r := by
  induction h with
  | refl => exact hx
  | tail hxy hyz ih =>
    exact ih.enters hyz fun name d hcall hd => hr name d (Visits.leadsTo hxy hcall) hd

theorem Sound.reads_bound {name : String} (hx : x.Sound r) (h : name ∈ x.node.readHere) :
    (SortedMap.get? x.scope name).isSome = true := by
  obtain ⟨bound, hn, hs⟩ := hx
  refine hs name ?_
  obtain ⟨opened, s, n⟩ := x
  cases n with
  | leaf worker args span => exact (Node.sound_leaf_iff.mp hn).2 name h
  | call callee args nested span => exact (Node.sound_call_iff.mp hn).2.1 name h
  | batch bindings body span =>
    obtain ⟨b, hb, rfl⟩ := List.mem_map.mp h
    exact (Node.sound_batch_iff.mp hn).2.1 b hb
  | sequence => cases h

theorem Sound.fault_unreviewed (hx : x.Sound r) (h : x.Fault r e) : e.Unreviewed := by
  cases h with
  | unbound hread hs =>
    have hsome := hx.reads_bound hread
    rw [hs] at hsome
    cases hsome
  | unknown hname hbad =>
    obtain ⟨bound, hn, -⟩ := hx
    exact absurd hn.resolves.self hbad
  | noSteps hnode =>
    obtain ⟨bound, hn, -⟩ := hx
    exact absurd rfl (Node.sound_sequence_iff.mp (hnode ▸ hn)).1
  | noBindings hnode =>
    obtain ⟨bound, hn, -⟩ := hx
    exact absurd rfl (Node.sound_batch_iff.mp (hnode ▸ hn)).1
  | notAList => trivial
  | lengths => trivial
  | arity => trivial
  | recursive => trivial

end Point

/-- Where a review finds nothing wrong, the expansion does not fail for what it looks for. -/
theorem expand_error_unreviewed {r : Registry} {opened bound : List String} {s : Scope} {n : Node}
    {e : CompileError}
    (hr : ∀ name d, n.LeadsTo r name → r.get? name = some d → d.body.Sound r d.parameters)
    (hn : n.Sound r bound) (hs : s.Binds bound) (h : expand r opened s n = .error e) :
    e.Unreviewed := by
  obtain ⟨y, hy, hf⟩ := expand_error_fault h
  exact (hy.sound ⟨bound, hn, hs⟩ hr).fault_unreviewed hf

end Workflow
