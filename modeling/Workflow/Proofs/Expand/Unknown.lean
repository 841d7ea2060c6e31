import Workflow.Proofs.Expand.Point
import Workflow.Proofs.Forest.Table

/-!
Unknown names. A tree that reaches a name that means nothing is refused for such a name before any
value is looked at, and an expansion that is begun never looks up a name in vain.
-/

namespace Workflow

variable {r : Registry} {n : Node}

/-- A name of a worker that is none, or of a call that means nothing, in the tree or in the body of
a superworker that the tree calls, directly or through others. -/
def Node.Misses (r : Registry) (n : Node) (name : String) : Prop :=
  ∃ m, Reaches r n m ∧ m.invoked? = some name ∧ ¬ m.Resolves r

theorem Node.known_iff_misses_nothing : n.Known r ↔ ∀ name, ¬ n.Misses r name := by
  constructor
  · intro h name hx
    obtain ⟨m, hm, -, hbad⟩ := hx
    exact hbad (h m hm)
  · intro h m hm
    by_contra hbad
    cases m with
    | leaf worker args span => exact h worker ⟨_, hm, rfl, hbad⟩
    | call name args nested span => exact h name ⟨_, hm, rfl, hbad⟩
    | sequence steps span => exact hbad trivial
    | batch bindings body span => exact hbad trivial

/-- Where every name that a tree reaches is known, its expansion looks up no name in vain. -/
theorem expand_ne_unknown {s : Scope} {name : String} (h : n.Known r) :
    expand r [] s n ≠ .error (.unknownWorker name) := by
  intro he
  obtain ⟨y, hy, hf⟩ := expand_error_fault he
  cases hf with
  | unknown _ hbad => exact hbad (h y.node (hy.reaches y.node (Node.mem_all_self _)))

/-- A name is refused before any value is looked at. -/
theorem compile_of_resolveNames_error {e : CompileError} (h : resolveNames r n = .error e)
    (args : Scope) : compile r args n = .error e := by
  rw [compile, h]
  rfl

/-- A tree is refused for an unknown name exactly when it reaches one. Which one does not depend on
the values that are bound, and once all names are known the compiler never looks one up in vain. -/
theorem compile_unknown (r : Registry) (n : Node) :
    ((∀ name, ¬ n.Misses r name) →
      ∀ args name, compile r args n ≠ .error (.unknownWorker name)) ∧
    ((∃ name, n.Misses r name) →
      ∃ bad, n.Misses r bad ∧ ∀ args, compile r args n = .error (.unknownWorker bad)) ∧
    (resolveNames r n = .ok () →
      ∀ args parent last name, emit r [] args parent last n ≠ .error (.unknownWorker name)) := by
  refine ⟨fun hnone args name he => ?_, fun hsome => ?_, fun hok args parent last name he => ?_⟩
  · have hknown := Node.known_iff_misses_nothing.mpr hnone
    rw [compile_eq_expand, resolveNames_eq_ok_iff.mpr hknown] at he
    exact expand_ne_unknown hknown (Except.map_eq_error_iff.mp he)
  · obtain ⟨name, hname⟩ := hsome
    cases hr : resolveNames r n with
    | ok _ =>
      have hknown := resolveNames_eq_ok_iff.mp hr
      exact absurd hname (Node.known_iff_misses_nothing.mp hknown name)
    | error e =>
      obtain ⟨m, hm, bad, hinvoked, hbad, rfl⟩ := resolveNames_error hr
      exact ⟨bad, ⟨m, hm, hinvoked, hbad⟩, compile_of_resolveNames_error hr⟩
  · rw [emit_eq_expand] at he
    exact expand_ne_unknown (resolveNames_eq_ok_iff.mp hok) (Except.map_eq_error_iff.mp he)

end Workflow
