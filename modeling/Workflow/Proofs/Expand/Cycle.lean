import Mathlib.Data.List.Chain
import Mathlib.Data.List.Nodup
import Workflow.Proofs.Expand.Limited
import Workflow.Proofs.Forest.Table

/-!
Compiling ends in every registry. The superworkers being expanded are those whose bodies led to
where the expansion stands, each called by the one before; so a superworker is found among them
only where the calls go round, and where no calls go round none is.
-/

namespace Workflow

namespace Registry

/-- The body of a superworker has a call of the name. -/
def Calls (r : Registry) (caller callee : String) : Prop :=
  ∃ d, r.get? caller = some d ∧ d.body.Calls callee

/-- Distinct superworkers, the first called by the tree and each later one by the body of the one
before, and at the end one of them again, called by the body of the last. -/
def Circle (r : Registry) (n : Node) (chain : List String) : Prop :=
  ∃ names name, chain = names ++ [name] ∧ names.Nodup ∧ name ∈ names ∧
    (∀ first ∈ chain.head?, n.Calls first) ∧ chain.IsChain r.Calls

end Registry

/-- No superworker that the tree leads to leads to itself. -/
def Node.Acyclic (r : Registry) (n : Node) : Prop :=
  ∀ name d, n.LeadsTo r name → r.get? name = some d → ¬ d.body.LeadsTo r name

theorem Node.calls_self {name : String} {args : List Arg} {nested : Option Node} {span : Span} :
    (Node.call name args nested span).Calls name :=
  ⟨args, nested, span, Node.mem_all_self _⟩

namespace Point

variable {r : Registry} {args : Scope} {n : Node} {y : Point}

/-- What is being expanded where an expansion of the tree stands was called in turn, and so would
be whatever is called there. -/
theorem Visits.called_in_turn (h : Visits r ⟨[], args, n⟩ y) {name : String}
    (hname : y.node.Calls name) :
    (name :: y.opened).IsChain (fun callee caller => r.Calls caller callee) ∧
      ∀ first ∈ (name :: y.opened).getLast?, n.Calls first := by
  induction h generalizing name with
  | refl =>
    refine ⟨.singleton _, fun first hfirst => ?_⟩
    cases hfirst
    exact hname
  | @tail y z _ hyz ih =>
    rcases hyz.cases with ⟨hz, hsub, -⟩ | ⟨callee, _, _, _, d, hy, hd, -, hz, hbody⟩
    · obtain ⟨a, nested, span, hcall⟩ := hname
      rw [hz]
      exact ih ⟨a, nested, span, hsub _ hcall⟩
    · have hcallee : y.node.Calls callee := hy ▸ Node.calls_self
      obtain ⟨hchain, hfirst⟩ := ih hcallee
      rw [hbody] at hname
      rw [hz, List.getLast?_cons_cons]
      exact ⟨List.isChain_cons_cons.mpr ⟨⟨d, hd, hname⟩, hchain⟩, hfirst⟩

/-- The body of what is being expanded reaches all that stands where the expansion does. -/
theorem Visits.opened_reaches (h : Visits r ⟨[], args, n⟩ y) {name : String}
    (hname : name ∈ y.opened) :
    ∃ d, r.get? name = some d ∧ ∀ m ∈ y.node.all, Reaches r d.body m := by
  induction h with
  | refl => cases hname
  | @tail y z _ hyz ih =>
    rcases hyz.cases with ⟨hz, hsub, -⟩ | ⟨callee, _, _, _, d, hy, hd, -, hz, hbody⟩
    · rw [hz] at hname
      obtain ⟨d, hd, hall⟩ := ih hname
      exact ⟨d, hd, fun m hm => hall m (hsub m hm)⟩
    · rw [hz] at hname
      rw [hbody]
      rcases List.mem_cons.mp hname with rfl | hname
      · exact ⟨d, hd, fun m hm => .inside hm⟩
      · obtain ⟨d', hd', hall⟩ := ih hname
        have hcall := hall y.node (Node.mem_all_self _)
        rw [hy] at hcall
        exact ⟨d', hd', fun m hm => .through hcall hd hm⟩

end Point

section Compile

variable {r : Registry} {args : Scope} {n : Node} {chain : List String}

/-- Compiling fails for a cycle only where a call is come to of what is being expanded. -/
theorem compile_recursive_at (h : compile r args n = .error (.recursive chain)) :
    ∃ y name, Point.Visits r ⟨[], args, n⟩ y ∧ y.node.Calls name ∧ name ∈ y.opened ∧
      chain = (name :: y.opened).reverse := by
  rw [compile_eq_expand, Except.bind_eq_error_iff] at h
  obtain h | ⟨_, _, h⟩ := h
  · obtain ⟨_, _, _, _, _, he⟩ := resolveNames_error h
    cases he
  · obtain ⟨y, hy, hf⟩ := expand_error_fault (Except.map_eq_error_iff.mp h)
    cases hf with
    | recursive hcall hd ho => exact ⟨y, _, hy, hcall ▸ Node.calls_self, ho, rfl⟩

theorem compile_recursive_circle (h : compile r args n = .error (.recursive chain)) :
    r.Circle n chain := by
  obtain ⟨y, name, hy, hcall, ho, rfl⟩ := compile_recursive_at h
  obtain ⟨hchain, hfirst⟩ := hy.called_in_turn hcall
  refine ⟨y.opened.reverse, name, List.reverse_cons, ?_, List.mem_reverse.mpr ho, ?_, ?_⟩
  · exact List.nodup_reverse.mpr (hy.opened List.nodup_nil (by simp)).1
  · rwa [List.head?_reverse]
  · exact List.isChain_reverse.mpr hchain

theorem compile_ne_recursive (h : n.Acyclic r) :
    compile r args n ≠ .error (.recursive chain) := by
  intro he
  obtain ⟨y, name, hy, ⟨a, nested, span, hcall⟩, ho, -⟩ := compile_recursive_at he
  obtain ⟨d, hd, hall⟩ := hy.opened_reaches ho
  exact h name d (hy.leadsTo ⟨a, nested, span, .inside hcall⟩) hd
    ⟨a, nested, span, hall _ hcall⟩

end Compile

/-- Compiling ends in every registry: wherever it comes to, what is being expanded is distinct and
registered, and it never gives up where there is room for the nodes of the tree and of all bodies
in each superworker. It fails for a cycle only where calls go round, and so never where none do. -/
theorem compile_ends (r : Registry) (args : Scope) (n : Node) :
    (∀ y, Point.Visits r ⟨[], args, n⟩ y → r.Allows y.opened) ∧
      (∀ room, r.room n ≤ room → compileWithin r room args n = Limited.of (compile r args n)) ∧
      (∀ chain, compile r args n = .error (.recursive chain) → r.Circle n chain) ∧
      (n.Acyclic r → ∀ chain, compile r args n ≠ .error (.recursive chain)) := by
  refine ⟨fun y hy => ?_, fun room h => compileWithin_eq h args,
    fun chain => compile_recursive_circle, fun h chain => compile_ne_recursive h⟩
  obtain ⟨hnodup, hreg⟩ := hy.opened List.nodup_nil (by simp)
  exact Registry.allows_of_registered hnodup hreg

/-- A superworker that calls another name and does nothing else. -/
def relay (name next : String) : Definition where
  name := name
  parameters := []
  body := .call next [] none Span.zero
  version := none
  span := Span.zero

def relays : Registry where
  definitions := SortedMap.ofList
    [("Ping", relay "Ping" "Pong"), ("Pong", relay "Pong" "Ping"), ("Page", relay "Page" "Send")]
  workers := SortedMap.ofList [("Send", ())]

example : compile relays SortedMap.empty (.call "Ping" [] none Span.zero) =
    .error (.recursive ["Ping", "Pong", "Ping"]) := by
  cbv

-- A superworker that is called in the block of a call of itself is not being expanded there.
example : (compile relays SortedMap.empty
    (.call "Page" [] (some (.call "Page" [] none Span.zero)) Span.zero)).isOk = true := by
  cbv

end Workflow
