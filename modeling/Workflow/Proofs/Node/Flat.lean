import Workflow.Proofs.Surface.Judgement
import Workflow.Proofs.Surface.Shape

/-!
Flat trees. A sequence among the steps of another stands for its own steps, and a sequence of one
step for that step; a tree without either has only sequences of several steps that are none.
-/

namespace Workflow

namespace Node

/-- The steps of a sequence; any other node is one step. -/
def steps : Node → List Node
  | sequence steps _ => steps
  | n => [n]

mutual

/-- The tree with the steps of every sequence within a sequence in its place, and with the step of
every sequence of one step in its place. -/
def flat : Node → Node
  | leaf worker args span => leaf worker args span
  | sequence steps span => Surface.joined span (flatSteps steps)
  | batch bindings body span => batch bindings (flat body) span
  | call name args none span => call name args none span
  | call name args (some body) span => call name args (some (flat body)) span

def flatSteps : List Node → List Node
  | [] => []
  | n :: ns => (flat n).steps ++ flatSteps ns

end

/-- A sequence is not empty. -/
def HasSteps : Node → Prop
  | sequence steps _ => steps ≠ []
  | _ => True

/-- A sequence has several steps, none of them a sequence. -/
def Flat : Node → Prop
  | sequence steps _ => 1 < steps.length ∧ ∀ inner span, sequence inner span ∉ steps
  | _ => True

theorem eq_sequence_or_steps (n : Node) :
    (∃ steps span, n = sequence steps span) ∨ n.steps = [n] := by
  cases n with
  | sequence steps span => exact .inl ⟨steps, span, rfl⟩
  | leaf => exact .inr rfl
  | batch => exact .inr rfl
  | call => exact .inr rfl

theorem Flat.steps_ne_nil {n : Node} (h : n.Flat) : n.steps ≠ [] := by
  rcases n.eq_sequence_or_steps with ⟨steps, span, rfl⟩ | hn
  · exact List.length_pos_iff.mp (Nat.zero_lt_of_lt h.1)
  · simp [hn]

/-- The steps of a flat tree are flat, and none is a sequence. -/
theorem All.steps_flat {n : Node} (h : n.All Flat) :
    (∀ m ∈ n.steps, m.All Flat) ∧ ∀ inner span, sequence inner span ∉ n.steps := by
  cases n with
  | sequence steps span =>
    obtain ⟨hflat, hsteps⟩ := all_sequence_iff.mp h
    exact ⟨hsteps, hflat.2⟩
  | leaf => simpa [steps] using h
  | batch => simpa [steps] using h
  | call => simpa [steps] using h

theorem joined_flat {span : Span} {ns : List Node} (hne : ns ≠ []) (h : ∀ n ∈ ns, n.All Flat)
    (hseq : ∀ inner span, sequence inner span ∉ ns) : (Surface.joined span ns).All Flat := by
  match ns with
  | [] => exact absurd rfl hne
  | [n] => exact h n (List.mem_singleton_self n)
  | n :: m :: rest => exact all_sequence_iff.mpr ⟨⟨by simp, hseq⟩, h⟩

mutual

theorem flat_all_flat : (n : Node) → n.All HasSteps → n.flat.All Flat
  | leaf worker args span => by
    intro _
    exact all_leaf_iff.mpr trivial
  | sequence steps span => by
    intro h
    obtain ⟨hne, hsteps⟩ := all_sequence_iff.mp h
    obtain ⟨hflat, hseq⟩ := flatSteps_all_flat steps hsteps
    exact joined_flat (flatSteps_ne_nil steps hne hsteps) hflat hseq
  | batch bindings body span => by
    intro h
    exact all_batch_iff.mpr ⟨trivial, flat_all_flat body (all_batch_iff.mp h).2⟩
  | call name args none span => by
    intro _
    exact all_call_iff.mpr ⟨trivial, nofun⟩
  | call name args (some body) span => by
    intro h
    have hbody := flat_all_flat body ((all_call_iff.mp h).2 body rfl)
    exact all_call_iff.mpr ⟨trivial, fun b hb => Option.some.inj hb ▸ hbody⟩

theorem flatSteps_all_flat : (ns : List Node) → (∀ n ∈ ns, n.All HasSteps) →
    (∀ m ∈ flatSteps ns, m.All Flat) ∧ ∀ inner span, sequence inner span ∉ flatSteps ns
  | [] => by simp [flatSteps]
  | n :: ns => by
    intro h
    obtain ⟨hn, hns⟩ := List.forall_mem_cons.mp h
    obtain ⟨hflat, hseq⟩ := (flat_all_flat n hn).steps_flat
    obtain ⟨hflats, hseqs⟩ := flatSteps_all_flat ns hns
    rw [flatSteps]
    refine ⟨List.forall_mem_append.mpr ⟨hflat, hflats⟩, fun inner span hm => ?_⟩
    rcases List.mem_append.mp hm with hm | hm
    · exact hseq inner span hm
    · exact hseqs inner span hm

theorem flatSteps_ne_nil : (ns : List Node) → ns ≠ [] → (∀ n ∈ ns, n.All HasSteps) →
    flatSteps ns ≠ []
  | [] => fun hne => absurd rfl hne
  | n :: ns => by
    intro _ h
    have hn := flat_all_flat n (h n List.mem_cons_self)
    rw [flatSteps]
    exact List.append_ne_nil_of_left_ne_nil hn.self.steps_ne_nil _

end

end Node

end Workflow
