import Workflow.Review.Rules

/-!
Where a read gets its value. The batches around a read are looked through from the inside, and the
first that binds the name has the value; where none does, the value is bound around the tree. The
lists of a batch are read outside its body.
-/

namespace Workflow

namespace Node

/-- `m` stands in a tree, in the bodies of batches that bind the names `bound`, innermost first. -/
inductive StandsIn (m : Node) : Node → List String → Prop
  | self : StandsIn m m []
  | step {steps : List Node} {span : Span} {n : Node} {bound : List String} (hn : n ∈ steps)
      (h : StandsIn m n bound) : StandsIn m (.sequence steps span) bound
  | body {bindings : List Binding} {body : Node} {span : Span} {bound : List String}
      (h : StandsIn m body bound) :
      StandsIn m (.batch bindings body span) (bound ++ bindings.map Binding.element)
  | block {name : String} {args : List Arg} {body : Node} {span : Span} {bound : List String}
      (h : StandsIn m body bound) : StandsIn m (.call name args (some body) span) bound

/-- A read of `x` stands in the tree, in the bodies of batches that bind the names `bound`. -/
def ReadsIn (n : Node) (bound : List String) (x : String) : Prop :=
  ∃ m, StandsIn m n bound ∧ x ∈ m.readHere

/-- A read of `x` in the tree that gets its value from further out than the names `between`, which
are bound around the tree. -/
def ReadsPast (n : Node) (between : List String) (x : String) : Prop :=
  ∃ bound, n.ReadsIn bound x ∧ x ∉ bound ++ between

/-- A read of `x` in the tree that a batch of the tree, or one of the names `between`, has the value
for. -/
def ReadsHidden (n : Node) (between : List String) (x : String) : Prop :=
  ∃ bound, n.ReadsIn bound x ∧ x ∈ bound ++ between

/-! ### Nodes of a tree -/

theorem StandsIn.mem_all {m n : Node} {bound : List String} (h : StandsIn m n bound) :
    m ∈ n.all := by
  induction h with
  | self => exact m.mem_all_self
  | step hn _ ih =>
    rw [all]
    exact List.mem_cons_of_mem _ (mem_allOf hn ih)
  | body _ ih =>
    rw [all]
    exact List.mem_cons_of_mem _ ih
  | block _ ih =>
    rw [all]
    exact List.mem_cons_of_mem _ ih

mutual

theorem exists_standsIn {m : Node} : (n : Node) → m ∈ n.all → ∃ bound, StandsIn m n bound
  | .leaf worker args span, h => by
    rw [all] at h
    obtain rfl := List.mem_singleton.mp h
    exact ⟨[], .self⟩
  | .sequence steps span, h => by
    rw [all] at h
    obtain rfl | h := List.mem_cons.mp h
    · exact ⟨[], .self⟩
    · obtain ⟨n, hn, bound, hm⟩ := exists_standsIn_of_allOf steps h
      exact ⟨bound, .step hn hm⟩
  | .batch bindings body span, h => by
    rw [all] at h
    obtain rfl | h := List.mem_cons.mp h
    · exact ⟨[], .self⟩
    · obtain ⟨bound, hm⟩ := exists_standsIn body h
      exact ⟨_, .body hm⟩
  | .call name args none span, h => by
    rw [all] at h
    obtain rfl := List.mem_singleton.mp h
    exact ⟨[], .self⟩
  | .call name args (some body) span, h => by
    rw [all] at h
    obtain rfl | h := List.mem_cons.mp h
    · exact ⟨[], .self⟩
    · obtain ⟨bound, hm⟩ := exists_standsIn body h
      exact ⟨bound, .block hm⟩

theorem exists_standsIn_of_allOf {m : Node} : (ns : List Node) → m ∈ allOf ns →
    ∃ n ∈ ns, ∃ bound, StandsIn m n bound
  | [], h => by
    rw [allOf] at h
    cases h
  | n :: ns, h => by
    rw [allOf] at h
    obtain h | h := List.mem_append.mp h
    · exact ⟨n, List.mem_cons_self, exists_standsIn n h⟩
    · obtain ⟨k, hk, hm⟩ := exists_standsIn_of_allOf ns h
      exact ⟨k, List.mem_cons_of_mem _ hk, hm⟩

end

/-- Every read of a name either gets past what is bound in between or does not. -/
theorem mem_reads_iff {n : Node} (between : List String) {x : String} :
    x ∈ n.reads ↔ n.ReadsPast between x ∨ n.ReadsHidden between x := by
  rw [reads, List.mem_flatMap]
  constructor
  · intro h
    obtain ⟨m, hm, hx⟩ := h
    obtain ⟨bound, hstands⟩ := exists_standsIn n hm
    have hread : n.ReadsIn bound x := ⟨m, hstands, hx⟩
    by_cases hbound : x ∈ bound ++ between
    · exact .inr ⟨bound, hread, hbound⟩
    · exact .inl ⟨bound, hread, hbound⟩
  · intro h
    have hread : ∃ bound, n.ReadsIn bound x := by
      obtain ⟨bound, hread, -⟩ | ⟨bound, hread, -⟩ := h
      · exact ⟨bound, hread⟩
      · exact ⟨bound, hread⟩
    obtain ⟨bound, m, hstands, hx⟩ := hread
    exact ⟨m, hstands.mem_all, hx⟩

/-! ### Reads that get out of a tree, by kind of node -/

section ReadsPast

variable {between : List String} {x : String} {span : Span}

theorem readsPast_self {n : Node} (h : x ∈ n.readHere) (hx : x ∉ between) :
    n.ReadsPast between x := by
  refine ⟨[], ⟨n, .self, h⟩, ?_⟩
  rwa [List.nil_append]

theorem ReadsPast.step {steps : List Node} {n : Node} (hn : n ∈ steps)
    (h : n.ReadsPast between x) : (sequence steps span).ReadsPast between x := by
  obtain ⟨bound, ⟨m, hm, hread⟩, hx⟩ := h
  exact ⟨bound, ⟨m, .step hn hm, hread⟩, hx⟩

/-- The elements of a batch are bound in its body. -/
theorem ReadsPast.body {bindings : List Binding} {body : Node}
    (h : body.ReadsPast (bindings.map Binding.element ++ between) x) :
    (batch bindings body span).ReadsPast between x := by
  obtain ⟨bound, ⟨m, hm, hread⟩, hx⟩ := h
  refine ⟨bound ++ bindings.map Binding.element, ⟨m, .body hm, hread⟩, ?_⟩
  rwa [List.append_assoc]

theorem ReadsPast.block {name : String} {args : List Arg} {body : Node}
    (h : body.ReadsPast between x) : (call name args (some body) span).ReadsPast between x := by
  obtain ⟨bound, ⟨m, hm, hread⟩, hx⟩ := h
  exact ⟨bound, ⟨m, .block hm, hread⟩, hx⟩

theorem readsPast_iff {n : Node} :
    n.ReadsPast between x ↔ n.ReadsPast [] x ∧ x ∉ between := by
  constructor
  · intro h
    obtain ⟨bound, hread, hx⟩ := h
    rw [List.mem_append, not_or] at hx
    refine ⟨⟨bound, hread, ?_⟩, hx.2⟩
    rw [List.append_nil]
    exact hx.1
  · intro h
    obtain ⟨⟨bound, hread, hx⟩, hbetween⟩ := h
    rw [List.append_nil] at hx
    refine ⟨bound, hread, ?_⟩
    rw [List.mem_append, not_or]
    exact ⟨hx, hbetween⟩

end ReadsPast

end Node

end Workflow
