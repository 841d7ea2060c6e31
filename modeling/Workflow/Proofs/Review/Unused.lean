import Workflow.Proofs.Node.Scoping

/-!
What the rule on unused names tells of. It looks for a name wherever it is read, so what it tells is
right: no read gets the value of a parameter or of an element that it warns of. It is silent on a
name that is read only where another binding has the value.
-/

namespace Workflow

theorem unusedParameter_mem_iff {o : Option Registry} {d : Definition} {p : String} :
    ⟨.unusedParameter p d.name, d.span⟩ ∈ ReviewRule.findings o d .unusedParameter ↔
      p ∈ d.parameters ∧ p ∉ d.body.reads := by
  have helements : ∀ n : Node, ⟨.unusedParameter p d.name, d.span⟩ ∉ unusedElements n := by
    intro n h
    cases n with
    | batch bindings body span =>
      obtain ⟨e, -, he⟩ := List.mem_map.mp h
      cases he
    | leaf => cases h
    | sequence => cases h
    | call => cases h
  rw [ReviewRule.findings, List.mem_append, unusedParameters]
  constructor
  · intro h
    obtain h | h := h
    · obtain ⟨q, hq, hp⟩ := List.mem_map.mp h
      cases hp
      simpa using hq
    · obtain ⟨n, -, hn⟩ := List.mem_flatMap.mp h
      exact absurd hn (helements n)
  · intro h
    exact .inl (List.mem_map.mpr ⟨p, by simpa using h, rfl⟩)

theorem unusedElement_mem_iff {bindings : List Binding} {body : Node} {span : Span} {e : String} :
    ⟨.unusedElement e, span⟩ ∈ unusedElements (.batch bindings body span) ↔
      e ∈ bindings.map Binding.element ∧ e ∉ body.reads := by
  rw [unusedElements]
  constructor
  · intro h
    obtain ⟨e', he, h⟩ := List.mem_map.mp h
    cases h
    simpa using he
  · intro h
    exact List.mem_map.mpr ⟨e, by simpa using h, rfl⟩

/-- The rule tells of the parameters, and then of each batch in turn. It warns of a parameter if and
only if no read in the body gets the parameter's value and none of the same name gets another. The
same holds of an element and the body of its batch, where later elements of the batch come in
between. -/
theorem unusedParameter_scoped (o : Option Registry) (d : Definition) :
    ReviewRule.findings o d .unusedParameter =
        unusedParameters d ++ d.body.all.flatMap unusedElements ∧
      (∀ p ∈ d.parameters,
        ⟨.unusedParameter p d.name, d.span⟩ ∈ ReviewRule.findings o d .unusedParameter ↔
          ¬ d.body.ReadsPast [] p ∧ ¬ d.body.ReadsHidden [] p) ∧
      ∀ before b after body span,
        Node.batch (before ++ b :: after) body span ∈ d.body.all →
        (⟨.unusedElement b.element, span⟩ ∈
            unusedElements (.batch (before ++ b :: after) body span) ↔
          ¬ body.ReadsPast (after.map Binding.element) b.element ∧
            ¬ body.ReadsHidden (after.map Binding.element) b.element) := by
  refine ⟨rfl, ?_, ?_⟩
  · intro p hp
    rw [unusedParameter_mem_iff, Node.mem_reads_iff [], not_or, and_iff_right hp]
  · intro before b after body span _
    have hb : b.element ∈ (before ++ b :: after).map Binding.element :=
      List.mem_map_of_mem (List.mem_append_right _ List.mem_cons_self)
    rw [unusedElement_mem_iff, Node.mem_reads_iff (after.map Binding.element), not_or,
      and_iff_right hb]

/-- A superworker that sends to each of its teams and has no use for its note. -/
def noted : Definition where
  name := "Page"
  parameters := ["teams", "note"]
  body := .batch [⟨"teams", "team"⟩] (.leaf "Send" [.param "team"] Span.zero) Span.zero
  version := none
  span := Span.zero

theorem noted_scoped :
    ⟨.unusedParameter "note" noted.name, noted.span⟩ ∈
        ReviewRule.findings none noted .unusedParameter ∧
      ¬ noted.body.ReadsPast [] "note" := by
  have htold : ⟨.unusedParameter "note" noted.name, noted.span⟩ ∈
      ReviewRule.findings none noted .unusedParameter := by decide
  obtain ⟨-, hparameters, -⟩ := unusedParameter_scoped none noted
  exact ⟨htold, ((hparameters "note" (by decide)).mp htold).1⟩

/-- Here the element of the batch has the name of a parameter. -/
def shadowed : Definition := { noted with parameters := ["teams", "team"] }

/-- No read gets the value of the parameter that the batch hides, and the rule does not tell. -/
theorem shadowed_untold :
    shadowed.parameters.Nodup ∧ "team" ∈ shadowed.parameters ∧
      ¬ shadowed.body.ReadsPast [] "team" ∧
      ⟨.unusedParameter "team" shadowed.name, shadowed.span⟩ ∉
        ReviewRule.findings none shadowed .unusedParameter := by
  refine ⟨by decide, by decide, ?_, by decide⟩
  intro h
  obtain ⟨bound, ⟨m, hm, hread⟩, hx⟩ := h
  cases hm with
  -- The batch itself reads its list and nothing else.
  | self => exact absurd hread (by decide)
  | body hm =>
    apply hx
    simp

end Workflow
