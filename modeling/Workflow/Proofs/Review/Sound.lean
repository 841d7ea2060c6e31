import Workflow.Proofs.Names.Reach
import Workflow.Proofs.Surface.Shape
import Workflow.Review.Rules

/-!
Trees in which a review finds no error, by kind of node. A review has no error to tell of a
definition if and only if every name in it is known and every read is of a name that is bound.
-/

namespace Workflow

/-- A tree without a gap in which every name is known and reads are of the names in `bound` and
of batch elements. -/
structure Node.Sound (r : Registry) (bound : List String) (n : Node) : Prop where
  reads : undefinedReads bound n = []
  whole : n.All Node.Whole
  resolves : n.All (Node.Resolves r)

/-- Every definition of a registry passes its review. -/
def Registry.Sound (r : Registry) : Prop :=
  ∀ name d, r.get? name = some d → d.body.Sound r d.parameters

theorem unboundNames_eq_nil_iff {complaint : String → Complaint} {bound : List String}
    {span : Span} {names : List String} :
    unboundNames complaint bound span names = [] ↔ ∀ x ∈ names, x ∈ bound := by
  simp [unboundNames]

theorem undefinedReadsOf_eq_nil_iff {bound : List String} {ns : List Node} :
    undefinedReadsOf bound ns = [] ↔ ∀ n ∈ ns, undefinedReads bound n = [] := by
  induction ns with
  | nil => simp [undefinedReadsOf]
  | cons n ns ih => simp [undefinedReadsOf, ih]

namespace Node

variable {r : Registry} {bound : List String} {span : Span}

theorem sound_leaf_iff {worker : String} {args : List Arg} :
    (leaf worker args span).Sound r bound ↔
      r.hasWorker worker = true ∧ ∀ x ∈ args.filterMap Arg.read?, x ∈ bound := by
  constructor
  · intro hx
    obtain ⟨hreads, -, hres⟩ := hx
    rw [undefinedReads, unboundNames_eq_nil_iff] at hreads
    exact ⟨hres.self, hreads⟩
  · intro hx
    obtain ⟨hw, hreads⟩ := hx
    exact ⟨by rw [undefinedReads, unboundNames_eq_nil_iff]; exact hreads,
      all_leaf_iff.mpr trivial, all_leaf_iff.mpr hw⟩

theorem sound_sequence_iff {steps : List Node} :
    (sequence steps span).Sound r bound ↔ steps ≠ [] ∧ ∀ n ∈ steps, n.Sound r bound := by
  constructor
  · intro hx
    obtain ⟨hreads, hwhole, hres⟩ := hx
    rw [undefinedReads, undefinedReadsOf_eq_nil_iff] at hreads
    rw [all_sequence_iff] at hwhole hres
    exact ⟨hwhole.1, fun n hn => ⟨hreads n hn, hwhole.2 n hn, hres.2 n hn⟩⟩
  · intro hx
    obtain ⟨hne, h⟩ := hx
    refine ⟨?_, all_sequence_iff.mpr ⟨hne, fun n hn => (h n hn).whole⟩,
      all_sequence_iff.mpr ⟨trivial, fun n hn => (h n hn).resolves⟩⟩
    rw [undefinedReads, undefinedReadsOf_eq_nil_iff]
    exact fun n hn => (h n hn).reads

/-- The lists of a batch are read outside its body, and its elements inside. -/
theorem sound_batch_iff {bindings : List Binding} {body : Node} :
    (batch bindings body span).Sound r bound ↔
      bindings ≠ [] ∧ (∀ b ∈ bindings, b.list ∈ bound) ∧
        body.Sound r (bindings.map Binding.element ++ bound) := by
  have hlists : (∀ x ∈ bindings.map Binding.list, x ∈ bound) ↔ ∀ b ∈ bindings, b.list ∈ bound :=
    List.forall_mem_map
  constructor
  · intro hx
    obtain ⟨hreads, hwhole, hres⟩ := hx
    rw [undefinedReads, List.append_eq_nil_iff, unboundNames_eq_nil_iff, hlists] at hreads
    rw [all_batch_iff] at hwhole hres
    exact ⟨hwhole.1, hreads.1, hreads.2, hwhole.2, hres.2⟩
  · intro hx
    obtain ⟨hne, hbound, hbody⟩ := hx
    refine ⟨?_, all_batch_iff.mpr ⟨hne, hbody.whole⟩, all_batch_iff.mpr ⟨trivial, hbody.resolves⟩⟩
    rw [undefinedReads, List.append_eq_nil_iff, unboundNames_eq_nil_iff, hlists]
    exact ⟨hbound, hbody.reads⟩

/-- The block of a call stands in the same scope as the call. -/
theorem sound_call_iff {name : String} {args : List Arg} {nested : Option Node} :
    (call name args nested span).Sound r bound ↔
      (r.resolve name).isSome = true ∧ (∀ x ∈ args.filterMap Arg.read?, x ∈ bound) ∧
        ∀ body, nested = some body → body.Sound r bound := by
  have hreads : undefinedReads bound (call name args nested span) = [] ↔
      (∀ x ∈ args.filterMap Arg.read?, x ∈ bound) ∧
        ∀ body, nested = some body → undefinedReads bound body = [] := by
    cases nested with
    | none => simp [undefinedReads, unboundNames_eq_nil_iff]
    | some body => simp [undefinedReads, unboundNames_eq_nil_iff]
  constructor
  · intro hx
    obtain ⟨hr, hwhole, hres⟩ := hx
    rw [hreads] at hr
    rw [all_call_iff] at hwhole hres
    exact ⟨hres.1, hr.1, fun body hb => ⟨hr.2 body hb, hwhole.2 body hb, hres.2 body hb⟩⟩
  · intro hx
    obtain ⟨hname, hargs, hbody⟩ := hx
    exact ⟨hreads.mpr ⟨hargs, fun body hb => (hbody body hb).reads⟩,
      all_call_iff.mpr ⟨trivial, fun body hb => (hbody body hb).whole⟩,
      all_call_iff.mpr ⟨hname, fun body hb => (hbody body hb).resolves⟩⟩

end Node

/-- In a sound registry a sound tree reaches known names only. -/
theorem Node.Sound.known {r : Registry} {bound : List String} {n : Node} (hr : r.Sound)
    (h : n.Sound r bound) : n.Known r := by
  intro m hm
  cases hm with
  | inside hm => exact h.resolves m hm
  | through _ hd hm => exact (hr _ _ hd).resolves m hm

/-! ### What the rules find -/

theorem unknownCallee?_eq_none_iff {r : Registry} {n : Node} :
    unknownCallee? r n = none ↔ n.Resolves r := by
  cases n with
  | leaf worker args span => simp [unknownCallee?, Node.Resolves]
  | call name args nested span => simp [unknownCallee?, Node.Resolves, Option.isSome_iff_ne_none]
  | sequence => simp [unknownCallee?, Node.Resolves]
  | batch => simp [unknownCallee?, Node.Resolves]

theorem rule_of_mem_unboundNames {complaint : String → Complaint} {rule : ReviewRule}
    {bound : List String} {span : Span} {names : List String} {f : Finding}
    (hc : ∀ x, (complaint x).rule = rule) (h : f ∈ unboundNames complaint bound span names) :
    f.complaint.rule = rule := by
  obtain ⟨x, _, rfl⟩ := List.mem_map.mp h
  exact hc x

mutual

theorem rule_of_mem_undefinedReads {bound : List String} {f : Finding} :
    (n : Node) → f ∈ undefinedReads bound n → f.complaint.rule = .undefinedParameter
  | .leaf worker args span => rule_of_mem_unboundNames fun _ => rfl
  | .sequence steps span => rule_of_mem_undefinedReadsOf steps
  | .batch bindings body span => by
    intro h
    rw [undefinedReads, List.mem_append] at h
    obtain h | h := h
    · exact rule_of_mem_unboundNames (fun _ => rfl) h
    · exact rule_of_mem_undefinedReads body h
  | .call name args none span => rule_of_mem_unboundNames fun _ => rfl
  | .call name args (some nested) span => by
    intro h
    rw [undefinedReads, List.mem_append] at h
    obtain h | h := h
    · exact rule_of_mem_unboundNames (fun _ => rfl) h
    · exact rule_of_mem_undefinedReads nested h

theorem rule_of_mem_undefinedReadsOf {bound : List String} {f : Finding} :
    (ns : List Node) → f ∈ undefinedReadsOf bound ns → f.complaint.rule = .undefinedParameter
  | [] => nofun
  | n :: ns => by
    intro h
    rw [undefinedReadsOf, List.mem_append] at h
    obtain h | h := h
    · exact rule_of_mem_undefinedReads n h
    · exact rule_of_mem_undefinedReadsOf ns h

end

theorem rule_of_unknownCallee? {r : Registry} {n : Node} {f : Finding}
    (h : unknownCallee? r n = some f) : f.complaint.rule = .unknownCallee := by
  cases n with
  | leaf worker args span =>
    simp only [unknownCallee?] at h
    split at h
    · cases h
    · cases h
      rfl
  | call name args nested span =>
    simp only [unknownCallee?] at h
    split at h
    · cases h
      rfl
    · cases h
  | sequence => cases h
  | batch => cases h

theorem rule_of_mem_unusedElements {n : Node} {f : Finding} (h : f ∈ unusedElements n) :
    f.complaint.rule = .unusedParameter := by
  cases n with
  | batch bindings body span =>
    obtain ⟨x, _, rfl⟩ := List.mem_map.mp h
    rfl
  | leaf => cases h
  | sequence => cases h
  | call => cases h

/-- What a rule finds names that rule. -/
theorem ReviewRule.rule_of_mem_findings {o : Option Registry} {d : Definition} {f : Finding}
    {rule : ReviewRule} (h : f ∈ rule.findings o d) : f.complaint.rule = rule := by
  cases rule with
  | undefinedParameter => exact rule_of_mem_undefinedReads d.body h
  | unknownCallee =>
    cases o with
    | none => cases h
    | some r =>
      obtain ⟨n, _, hn⟩ := List.mem_filterMap.mp h
      exact rule_of_unknownCallee? hn
  | unusedParameter =>
    rcases List.mem_append.mp h with h | h
    · obtain ⟨x, _, rfl⟩ := List.mem_map.mp h
      rfl
    · obtain ⟨n, _, hn⟩ := List.mem_flatMap.mp h
      exact rule_of_mem_unusedElements hn

/-- A rule tells of no error if and only if it finds nothing or is not grave. -/
theorem ReviewRule.findings_clean_iff {o : Option Registry} {d : Definition}
    {rule : ReviewRule} :
    (∀ f ∈ rule.findings o d, f.isError = false) ↔
      (rule.isError = true → rule.findings o d = []) := by
  have hrule : ∀ f ∈ rule.findings o d, f.isError = rule.isError := fun f hf => by
    rw [Finding.isError, rule_of_mem_findings hf]
  constructor
  · intro h he
    refine List.eq_nil_iff_forall_not_mem.mpr fun f hf => ?_
    have hf' := h f hf
    rw [hrule f hf, he] at hf'
    cases hf'
  · intro h f hf
    rw [hrule f hf]
    cases he : rule.isError with
    | false => rfl
    | true =>
      rw [h he] at hf
      cases hf

/-- A review tells of no error if and only if all reads are bound and all names are known. -/
theorem Definition.review_clean_iff {r : Registry} {d : Definition} :
    (∀ f ∈ d.review (some r), f.isError = false) ↔
      undefinedReads d.parameters d.body = [] ∧ d.body.All (Node.Resolves r) := by
  have hrules : (∀ f ∈ d.review (some r), f.isError = false) ↔
      ∀ rule ∈ ReviewRule.all, ∀ f ∈ rule.findings (some r) d, f.isError = false := by
    simp only [Definition.review, List.mem_flatMap]
    exact ⟨fun h rule hr f hf => h f ⟨rule, hr, hf⟩, fun h f ⟨rule, hr, hf⟩ => h rule hr f hf⟩
  simp only [hrules, ReviewRule.findings_clean_iff]
  simp [ReviewRule.all, ReviewRule.isError, ReviewRule.findings, unknownCallee?_eq_none_iff,
    Node.All]

end Workflow
