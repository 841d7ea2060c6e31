import Workflow.Proofs.Forest.Rules
import Workflow.Proofs.Names.Reach

/-!
The table of a tree is its numbered expansion. Compiling succeeds exactly where every name that
the tree reaches resolves and a forest follows for it by the rules; the forest is then numbered
from 1, depth first.
-/

namespace Workflow

/-- The one tree of a forest, or a structural job over several trees that holds all that is
bound. -/
def rooted (args : Scope) : Forest → JobTree
  | [t] => t
  | f => .node (.call superworkerName) (args.keys.map .name) args.values f

theorem rooted_singleton (args : Scope) (t : JobTree) : rooted args [t] = t := rfl

theorem rooted_of_one_lt {args : Scope} {f : Forest} (h : 1 < f.length) :
    rooted args f = .node (.call superworkerName) (args.keys.map .name) args.values f := by
  match f, h with
  | _ :: _ :: _, _ => rfl

theorem expandsAll_length {r : Registry} {opened : List String} {s : Scope} {ns : List Node}
    {f : Forest}
    (ih : ∀ n ∈ ns, ∀ f, Expands r opened s n f → f.length = headCount n)
    (h : ExpandsAll r opened s ns f) : f.length = headCounts ns := by
  induction ns generalizing f with
  | nil =>
    cases h
    rfl
  | cons n rest ihs =>
    cases h with
    | cons hn hrest =>
      simp [headCounts, ih n List.mem_cons_self _ hn,
        ihs (fun m hm => ih m (List.mem_cons_of_mem _ hm)) hrest]

/-- A tree expands to as many trees as it has heads. -/
theorem expands_length {r : Registry} {opened : List String} {s : Scope} {n : Node} {f : Forest}
    (h : Expands r opened s n f) : f.length = headCount n := by
  induction opened, n using expansion_induction r generalizing s f with
  | sequence opened steps span ih =>
    cases h with
    | sequence _ h => exact expandsAll_length (fun n hn f hf => ih n hn hf) h
  | leaf opened worker args span =>
    cases h
    rfl
  | batch opened bindings body span ih =>
    cases h
    rfl
  | call opened name args nested span ihd ihn => cases h <;> rfl

theorem expands_ne_nil {r : Registry} {opened : List String} {s : Scope} {n : Node} {f : Forest}
    (h : Expands r opened s n f) : f ≠ [] := by
  induction opened, n using expansion_induction r generalizing s f with
  | sequence opened steps span ih =>
    cases h with
    | sequence hne h =>
      cases h with
      | nil => exact absurd rfl hne
      | cons h _ => simp [ih _ List.mem_cons_self h]
  | leaf opened worker args span =>
    cases h
    simp
  | batch opened bindings body span ih =>
    cases h
    simp
  | call opened name args nested span ihd ihn => cases h <;> simp

/-- Compiling is resolving names, expanding and numbering. -/
theorem compile_eq_expand (r : Registry) (args : Scope) (n : Node) :
    compile r args n = (do
      resolveNames r n
      (expand r [] args n).map fun f => (rooted args f).table) := by
  rw [compile]
  cases resolveNames r n with
  | error e => rfl
  | ok u =>
    simp only [bind, Except.bind, emitBody, emit_eq_expand]
    cases he : expand r [] args n with
    | error e => split <;> rfl
    | ok f =>
      have hlen : f.length = headCount n := expands_length (expand_eq_ok_iff.mp he)
      split
      · have hone : 1 < f.length := by lia
        have hroot := Block.holding_ofForest 0 superworkerName (args.keys.map .name) args.values
          none f
        simp only [Nat.zero_add] at hroot
        simp only [Except.map, pure, Except.pure, rooted_of_one_lt hone, rootJob, hroot]
        simp [Block.ofForest, numberAll_singleton, JobTree.table]
      · have hpos := List.length_pos_iff.mpr (expands_ne_nil (expand_eq_ok_iff.mp he))
        obtain ⟨t, rfl⟩ := List.length_eq_one_iff.mp (show f.length = 1 by lia)
        simp only [Except.map, pure, Except.pure, Block.ofForest_chained, rooted_singleton]
        simp [numberAll_singleton, JobTree.table]

/-- Compiling gives exactly the numbered expansion of a tree all of whose names resolve. -/
theorem compile_eq_ok_iff {r : Registry} {args : Scope} {n : Node} {t : Table} :
    compile r args n = .ok t ↔
      n.Known r ∧ ∃ f, Expands r [] args n f ∧ t = (rooted args f).table := by
  rw [compile_eq_expand, Except.bind_eq_ok_iff]
  constructor
  · intro hx
    obtain ⟨u, hr, h⟩ := hx
    obtain ⟨f, hf, rfl⟩ := Except.map_eq_ok_iff.mp h
    exact ⟨resolveNames_eq_ok_iff.mp hr, f, expand_eq_ok_iff.mp hf, rfl⟩
  · intro hx
    obtain ⟨hk, f, hf, rfl⟩ := hx
    exact ⟨(), resolveNames_eq_ok_iff.mpr hk,
      Except.map_eq_ok_iff.mpr ⟨f, expand_eq_ok_iff.mpr hf, rfl⟩⟩

end Workflow
