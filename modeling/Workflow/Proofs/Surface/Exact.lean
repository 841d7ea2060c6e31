import Workflow.Proofs.Surface.Derivation
import Workflow.Proofs.Surface.Judgement

/-!
What a text is read as. A text is read when it derives from the grammar and keeps the rules beside
it, and then as the tree of its derivation; it is malformed when it derives and breaks a rule, and
unreadable when it does not derive.
-/

namespace Workflow

namespace Surface

open Syntax

/-- The whole text derives from a rule, with a derivation. -/
def Derives (r : RuleName) (source : String) (t : Phrase) : Prop :=
  ∃ c, grammar.Parses .spaced (.rule r) ⟨0, source.toList⟩ (some ([t], c))

/-- A text has one derivation at most. -/
theorem Derives.unique {r : RuleName} {source : String} {t t' : Phrase} (h : Derives r source t)
    (h' : Derives r source t') : t = t' := by
  obtain ⟨c, hc⟩ := h
  obtain ⟨c', hc'⟩ := h'
  have := hc.unique hc'
  simp only [Option.some.injEq, Prod.mk.injEq, List.cons.injEq, and_true] at this
  exact this.1

/-- A result tells exactly of the derivations from a rule: `view` is what a derivation stands for,
`sound` are the rules beside the grammar, and `value` is the result when they are kept. -/
structure Exact {α β : Type} (r : RuleName) (view : Phrase → Option β) (sound : β → Prop)
    (value : β → α) (source : String) (result : Reading α) : Prop where
  viewed : ∀ t, Derives r source t → ∃ b, view t = some b
  accepted : ∀ a, result = .ok a ↔
    ∃ t b, Derives r source t ∧ view t = some b ∧ sound b ∧ a = value b
  malformed : (∃ reason span, result = .error (.malformed reason span)) ↔
    ∃ t b, Derives r source t ∧ view t = some b ∧ ¬sound b
  unreadable : (∃ span, result = .error (.unreadable span)) ↔ ¬∃ t, Derives r source t

theorem exact_of_realizes {α β : Type} {r : RuleName} {p : Rule β} {view : Phrase → Option β}
    {sound : β → Prop} {value : β → α} {source : String} {result : Reading α}
    (hp : Realizes .spaced (.rule r) p (View.one view) ⟨0, source.toList⟩)
    (herror : ∀ offset, read p source.toList = .error offset →
      ∃ span, result = .error (.unreadable span))
    (hok : ∀ b, read p source.toList = .ok b → Judges result (sound b) (value b)) :
    Exact r view sound value source result := by
  rcases hp.cases with ⟨hf, hnone⟩ | ⟨b, c', _, hf, hsome, t, rfl, hv⟩
  · have hno : ¬∃ t, Derives r source t := by
      rintro ⟨t, c, hc⟩
      cases hc.unique hnone
    have hread : read p source.toList = .error (p ⟨0, source.toList⟩).reached := by
      simp [read, hf]
    obtain ⟨span, rfl⟩ := herror _ hread
    exact ⟨fun t ht => absurd ⟨t, ht⟩ hno,
      fun a => ⟨nofun, fun ⟨t, _, ht, _⟩ => absurd ⟨t, ht⟩ hno⟩,
      ⟨nofun, fun ⟨t, _, ht, _⟩ => absurd ⟨t, ht⟩ hno⟩, ⟨fun _ => hno, fun _ => ⟨span, rfl⟩⟩⟩
  · have hd : Derives r source t := ⟨c', hsome⟩
    have hview : ∀ t' b', Derives r source t' → view t' = some b' → b' = b := by
      intro t' b' ht' hv'
      obtain rfl := ht'.unique hd
      exact Option.some.inj (hv'.symm.trans hv)
    have hj := hok b (by simp [read, hf])
    refine ⟨fun t' ht' => ⟨b, ht'.unique hd ▸ hv⟩, fun a => ?_, ?_, ?_⟩
    · rw [hj.eq_ok_iff]
      refine ⟨fun ⟨hs, ha⟩ => ⟨t, b, hd, hv, hs, ha⟩, ?_⟩
      rintro ⟨t', b', ht', hv', hs, ha⟩
      obtain rfl := hview t' b' ht' hv'
      exact ⟨hs, ha⟩
    · rw [hj.eq_malformed_iff]
      refine ⟨fun hs => ⟨t, b, hd, hv, hs⟩, ?_⟩
      rintro ⟨t', b', ht', hv', hs⟩
      obtain rfl := hview t' b' ht' hv'
      exact hs
    · exact ⟨fun ⟨span, h⟩ => absurd h hj.ne_unreadable, fun h => absurd ⟨t, hd⟩ h⟩

end Surface

open Surface Syntax

/-- Bodies and definition files are read as the grammar and the rules beside it have it. -/
theorem parse_exact (source : String) :
    Exact .body block? Block.Sound (·.node (Lines.ofText source.toList)) source
        (parseBody source) ∧
      Exact .program items? (fun items => ∀ item ∈ items, item.Sound)
        (fileOf (Lines.ofText source.toList)) source (parseFile source) := by
  constructor
  · refine exact_of_realizes realizes_body (fun offset h => ?_) fun b h => ?_
    · simp only [parseBody, h]
      exact ⟨_, rfl⟩
    · simp only [parseBody, h]
      exact b.judges_toNode _ .body
  · refine exact_of_realizes realizes_program (fun offset h => ?_) fun items h => ?_
    · simp only [parseFile, h]
      exact ⟨_, rfl⟩
    · simp only [parseFile, h]
      exact judges_readItems _ items

end Workflow
