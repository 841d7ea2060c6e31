import Workflow.Proofs.Node.Scoping
import Workflow.Proofs.Source.Lines
import Workflow.Proofs.Surface.Named
import Workflow.Proofs.Surface.Origins

/-!
The spans of what is read from a text. They lie in the text and have the lines and columns of their
two ends, the span of a node covers those of all nodes below it, the steps of a sequence and the
definitions of a file follow one another, and calls and batches begin with their words.
-/

namespace Workflow

open Text (utf8Length)

/-! ### Spans in a text -/

/-- An offset between two characters of a text, with its line and column. -/
def Text.Marks (text : List Char) (offset line col : Nat) : Prop :=
  ∃ before after, text = before ++ after ∧ offset = utf8Length before ∧
    line = before.count '\n' ∧ col = Text.column before

/-- A word stands in a text from an offset on. -/
def Text.Begins (text : List Char) (offset : Nat) (word : List Char) : Prop :=
  ∃ before after, text = before ++ word ++ after ∧ offset = utf8Length before

namespace Span

/-- A span that stands in a text. -/
structure On (text : List Char) (s : Span) : Prop where
  ordered : s.start ≤ s.stop
  bounded : s.stop ≤ utf8Length text
  first : Text.Marks text s.start s.startLine s.startCol
  last : Text.Marks text s.stop s.stopLine s.stopCol

def Covers (s t : Span) : Prop := s.start ≤ t.start ∧ t.stop ≤ s.stop

theorem Covers.refl (s : Span) : s.Covers s := ⟨Nat.le_refl _, Nat.le_refl _⟩

theorem Covers.trans {s t u : Span} (h : s.Covers t) (h' : t.Covers u) : s.Covers u :=
  ⟨Nat.le_trans h.1 h'.1, Nat.le_trans h'.2 h.2⟩

end Span

namespace Node

variable {text : List Char} {n m k : Node} {P : Node → Prop}

/-- What the span of a node has to do with the text and with the spans right below it. -/
def Spanned (text : List Char) : Node → Prop
  | leaf _ _ s => s.On text
  | sequence steps s => s.On text ∧ (∀ n ∈ steps, s.Covers n.span) ∧
      steps.Pairwise fun a b => a.span.stop ≤ b.span.start
  | batch _ body s => s.On text ∧ s.Covers body.span ∧ Text.Begins text s.start "batch".toList
  | call name _ nested s => s.On text ∧ (∀ body, nested = some body → s.Covers body.span) ∧
      Text.Begins text s.start name.toList

/-- The spans of a tree fit the text and one another. -/
structure SpansFit (text : List Char) (n : Node) : Prop where
  on : ∀ m ∈ n.all, m.span.On text
  nested : ∀ m ∈ n.all, ∀ k ∈ m.all, m.span.Covers k.span
  inOrder : ∀ steps s, sequence steps s ∈ n.all →
    steps.Pairwise fun a b => a.span.stop ≤ b.span.start
  calls : ∀ name args nested s, call name args nested s ∈ n.all →
    Text.Begins text s.start name.toList
  batches : ∀ bindings body s, batch bindings body s ∈ n.all →
    Text.Begins text s.start "batch".toList

theorem mem_all_trans (hm : m ∈ n.all) (hk : k ∈ m.all) : k ∈ n.all := by
  obtain ⟨bound, hstands⟩ := exists_standsIn n hm
  clear hm
  induction hstands with
  | self => exact hk
  | step hn _ ih =>
    rw [all]
    exact List.mem_cons_of_mem _ (mem_allOf hn ih)
  | body _ ih | block _ ih =>
    rw [all]
    exact List.mem_cons_of_mem _ ih

theorem All.below (h : n.All P) (hm : m ∈ n.all) : m.All P :=
  fun k hk => h k (mem_all_trans hm hk)

theorem Spanned.on (h : n.Spanned text) : n.span.On text := by
  cases n with
  | leaf => exact h
  | sequence | batch | call => exact h.1

/-- Where each span covers those right below it, it covers all that are below it. -/
theorem covers_of_all (h : n.All (Spanned text)) (hm : m ∈ n.all) : n.span.Covers m.span := by
  obtain ⟨bound, hstands⟩ := exists_standsIn n hm
  clear hm
  induction hstands with
  | self => exact .refl _
  | step hn _ ih =>
    obtain ⟨⟨-, hcovers, -⟩, hsteps⟩ := all_sequence_iff.mp h
    exact (hcovers _ hn).trans (ih (hsteps _ hn))
  | body _ ih =>
    obtain ⟨⟨-, hcovers, -⟩, hbody⟩ := all_batch_iff.mp h
    exact hcovers.trans (ih hbody)
  | block _ ih =>
    obtain ⟨⟨-, hcovers, -⟩, hbody⟩ := all_call_iff.mp h
    exact (hcovers _ rfl).trans (ih (hbody _ rfl))

theorem spansFit_of_all (h : n.All (Spanned text)) : n.SpansFit text where
  on m hm := (h m hm).on
  nested _ hm _ hk := covers_of_all (h.below hm) hk
  inOrder _ _ hm := (h _ hm).2.2
  calls _ _ _ _ hm := (h _ hm).2.2
  batches _ _ _ hm := (h _ hm).2.2

end Node

structure Definition.SpansFit (text : List Char) (d : Definition) : Prop where
  on : d.span.On text
  covers : d.span.Covers d.body.span
  body : d.body.SpansFit text

namespace Surface

open Syntax

variable {text : List Char} {m : Phrase}

/-- The span of a match that stands in a text, with lines and columns from that text. -/
def matchSpan (text : List Char) (m : Phrase) : Span :=
  Extent.span ⟨m.start, m.stop⟩ (Lines.ofText text)

theorem matchSpan_on (h : Standing text m) : (matchSpan text m).On text := by
  obtain ⟨before, after, htext, hstart, hstop⟩ := h.self.cut
  have htext' : text = before ++ (m.text ++ after) := by rw [htext, List.append_assoc]
  have hfirst := Lines.lineCol_ofText before (m.text ++ after)
  have hlast := Lines.lineCol_ofText (before ++ m.text) after
  rw [← htext', ← hstart] at hfirst
  rw [← htext, ← hstop] at hlast
  constructor
  case ordered => exact h.self.row.le
  case bounded =>
    show m.stop ≤ _
    rw [hstop, htext, Text.utf8Length_append _ after]
    exact Nat.le_add_right _ _
  case first =>
    refine ⟨before, m.text ++ after, htext', hstart, ?_, ?_⟩
    · exact congrArg Prod.fst hfirst
    · exact congrArg Prod.snd hfirst
  case last =>
    refine ⟨before ++ m.text, after, htext, hstop, ?_, ?_⟩
    · exact congrArg Prod.fst hlast
    · exact congrArg Prod.snd hlast

theorem begins_of_standing {k : Phrase} (h : Standing text m) (hk : k ∈ m.inner)
    (hstart : k.start = m.start) : Text.Begins text (matchSpan text m).start k.text := by
  obtain ⟨before, after, htext, hoffset, -⟩ := (h.inner hk).self.cut
  exact ⟨before, after, htext, hstart.symm.trans hoffset⟩

theorem covers_of_mem {k : Phrase} (h : Standing text m) (hk : k ∈ m.inner) :
    (matchSpan text m).Covers (matchSpan text k) :=
  h.self.row.mem hk

theorem span_of_statement {s : Statement} (h : StatementOf m s) :
    (s.node (Lines.ofText text)).span = matchSpan text m := by
  cases h with
  | batch => rfl
  | @call _ _ _ nested => cases nested <;> rfl

/-- The tree of a block has the span of the block, or that of its only statement. -/
theorem span_of_block {b : Block} (hm : Standing text m) (hb : block? m = some b) :
    ∃ k, Standing text k ∧ (matchSpan text m).Covers (matchSpan text k) ∧
      (b.node (Lines.ofText text)).span = matchSpan text k := by
  obtain ⟨ss, hss, rfl⟩ := statements_of_block hb
  obtain ⟨ks, hks, hall⟩ := forall₂_of_statements hss
  rw [Block.node, nodesOf_eq_map]
  match ss, hall with
  | [], _ => exact ⟨m, hm, .refl _, rfl⟩
  | [s], hall =>
    obtain ⟨k, hk, hview⟩ := mem_of_forall₂ hall (List.mem_singleton_self s)
    have hin := hks.mem hk
    exact ⟨k, hm.inner hin, covers_of_mem hm hin, span_of_statement (statementOf hview)⟩
  | s :: s' :: ss, _ => exact ⟨m, hm, .refl _, rfl⟩

theorem covers_block {body : Phrase} {b : Block} (hm : Standing text m) (hbody : body ∈ m.inner)
    (hb : block? body = some b) :
    (matchSpan text m).Covers (b.node (Lines.ofText text)).span := by
  obtain ⟨k, -, hcovers, hspan⟩ := span_of_block (hm.inner hbody) hb
  rw [hspan]
  exact (covers_of_mem hm hbody).trans hcovers

theorem spanned_of_statement {s : Statement} (hm : Standing text m) (hs : StatementOf m s) :
    (s.node (Lines.ofText text)).Spanned text := by
  have hon := matchSpan_on hm
  cases hs with
  | @batch bindings body b hr hitems hbody hb =>
    obtain ⟨k, rest, hinner, hk, hstart⟩ := word_of_batchStmt hm.self hr
    have hin : k ∈ m.inner := hinner ▸ List.mem_cons_self
    have hbegins := begins_of_standing hm hin hstart
    rw [text_of_kwBatch (hm.inner hin).self hk] at hbegins
    exact ⟨hon, covers_block hm hbody hb, hbegins⟩
  | @call name rest args nested hr hinner hitems hn =>
    obtain ⟨k, rest', hinner', -, hstart⟩ := name_of_callStmt hm.self hr
    obtain ⟨rfl, -⟩ := List.cons.inj (hinner'.symm.trans hinner)
    have hin : k ∈ m.inner := hinner ▸ List.mem_cons_self
    have hbegins := begins_of_standing hm hin hstart
    rw [← String.toList_ofList (l := k.text)] at hbegins
    cases nested with
    | none => exact ⟨hon, nofun, hbegins⟩
    | some b =>
      obtain ⟨body, hbody, hb⟩ := hn b rfl
      refine ⟨hon, ?_, hbegins⟩
      rintro _ ⟨⟩
      exact covers_block hm hbody hb

/-- The statements of a block stand in the text one behind the other. -/
theorem spanned_of_statements {ss : List Statement} (hm : Standing text m)
    (hss : statements? m.inner = some ss) :
    (Node.sequence (ss.map (Statement.node (Lines.ofText text))) (matchSpan text m)).Spanned
      text := by
  obtain ⟨ks, hks, hall⟩ := forall₂_of_statements hss
  refine ⟨matchSpan_on hm, ?_, ?_⟩
  · rw [List.forall_mem_map]
    intro s hs
    obtain ⟨k, hk, hview⟩ := mem_of_forall₂ hall hs
    rw [span_of_statement (statementOf hview)]
    exact covers_of_mem hm (hks.mem hk)
  · rw [List.pairwise_map]
    refine pairwise_of_forall₂ hall (hm.self.row.sublist hks).pairwise ?_
    intro k k' s s' hs hs' hle
    rw [span_of_statement (statementOf hs), span_of_statement (statementOf hs')]
    exact hle

theorem spansFit_of_block {b : Block} (hm : Standing text m) (hb : block? m = some b)
    (hs : b.Sound) : (b.node (Lines.ofText text)).SpansFit text := by
  have hall := all_of_standing (fun _ _ hm hs _ => spanned_of_statement hm hs)
    (fun _ _ hm hss _ _ => spanned_of_statements hm hss) m hm
  exact Node.spansFit_of_all (hall.2 b hb hs)

/-! ### Files -/

theorem span_of_definition {phrase : DefinitionPhrase} (h : item? m = some (.definition phrase)) :
    (phrase.definition (Lines.ofText text)).span = matchSpan text m := by
  cases itemOf h
  rfl

theorem spansFit_of_definition {phrase : DefinitionPhrase} (hm : Standing text m)
    (h : item? m = some (.definition phrase)) (hs : phrase.Sound) :
    (phrase.definition (Lines.ofText text)).SpansFit text := by
  have hspan : (phrase.definition (Lines.ofText text)).span = matchSpan text m :=
    span_of_definition h
  cases itemOf h with
  | @definition word name body rest parameters b hr hinner hitems hbody hb =>
    refine ⟨?_, ?_, ?_⟩
    · rw [hspan]
      exact matchSpan_on hm
    · rw [hspan]
      exact covers_block hm hbody hb
    · exact spansFit_of_block (hm.inner hbody) hb hs.body

/-- The definitions of a file stand in the text one behind the other. -/
theorem definitions_in_order {items : List Item} (hm : Standing text m)
    (h : items? m = some items) :
    (fileOf (Lines.ofText text) items).definitions.Pairwise fun d e =>
      d.span.stop ≤ e.span.start := by
  obtain ⟨ks, hks, hall⟩ := forall₂_of_items h
  refine List.pairwise_filterMap.mpr ?_
  refine pairwise_of_forall₂ hall (hm.self.row.sublist hks).pairwise ?_
  intro k k' i i' hi hi' hle d hd e he
  cases i with
  | workers names => cases hd
  | definition phrase =>
    cases i' with
    | workers names => cases he
    | definition phrase' =>
      obtain rfl := Option.some.inj hd
      obtain rfl := Option.some.inj he
      rw [span_of_definition hi, span_of_definition hi']
      exact hle

end Surface

open Surface Syntax

/-- The spans of every accepted text fit together, for bodies and for definition files. -/
theorem spans_fit (source : String) :
    (∀ n, parseBody source = .ok n → n.SpansFit source.toList) ∧
    ∀ file, parseFile source = .ok file →
      (∀ d ∈ file.definitions, d.SpansFit source.toList) ∧
      file.definitions.Pairwise fun d e => d.span.stop ≤ e.span.start := by
  constructor
  · intro n h
    obtain ⟨m, b, hm, hb, hs, rfl⟩ := standing_of_parseBody h
    exact spansFit_of_block hm hb hs
  · intro file h
    obtain ⟨m, items, hm, hitems, hs, rfl⟩ := standing_of_parseFile h
    refine ⟨fun d hd => ?_, definitions_in_order hm hitems⟩
    obtain ⟨k, phrase, hk, hview, hsound, rfl⟩ := definition_of_mem hm hitems hs hd
    exact spansFit_of_definition hk hview hsound

/-- An accented letter takes two bytes and is one character. -/
theorem open_lid_spans :
    (∃ n, parseBody "open # é\nlid" = .ok n ∧ n.SpansFit "open # é\nlid".toList ∧
      n.all.map Node.span = [⟨0, 13, 0, 0, 1, 3⟩, ⟨0, 10, 0, 0, 1, 0⟩, ⟨10, 13, 1, 0, 1, 3⟩]) ∧
    ∃ file, parseFile "superworker use do open end # é\nsuperworker give do open end" = .ok file ∧
      file.definitions.map Definition.span = [⟨0, 27, 0, 0, 0, 27⟩, ⟨33, 61, 1, 0, 1, 28⟩] ∧
      file.definitions.Pairwise fun d e => d.span.stop ≤ e.span.start := by
  constructor
  · obtain ⟨n, hn, hspans⟩ : ∃ n, parseBody "open # é\nlid" = .ok n ∧ n.all.map Node.span =
        [⟨0, 13, 0, 0, 1, 3⟩, ⟨0, 10, 0, 0, 1, 0⟩, ⟨10, 13, 1, 0, 1, 3⟩] :=
      Except.exists_of_toOption_map _ (by decide +kernel)
    exact ⟨n, hn, (spans_fit _).1 n hn, hspans⟩
  · obtain ⟨file, hfile, hspans⟩ : ∃ file,
        parseFile "superworker use do open end # é\nsuperworker give do open end" = .ok file ∧
          file.definitions.map Definition.span = [⟨0, 27, 0, 0, 0, 27⟩, ⟨33, 61, 1, 0, 1, 28⟩] :=
      Except.exists_of_toOption_map _ (by decide +kernel)
    exact ⟨file, hfile, hspans, ((spans_fit _).2 file hfile).2⟩

end Workflow
