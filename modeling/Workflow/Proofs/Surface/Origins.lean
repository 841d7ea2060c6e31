import Mathlib.Data.List.Forall2
import Workflow.Proofs.Surface.Derivation
import Workflow.Proofs.Surface.Judgement
import Workflow.Proofs.Surface.Shape
import Workflow.Proofs.Surface.Standing

/-!
The matches that a tree comes of. A statement comes of one match, and what it is made of from those
inside of it; so what holds of every statement and every block that stands in a text holds of every
node of the tree that is read from the text.
-/

namespace Workflow.Surface

namespace Syntax

open PegGrammar (Parses)

/-! ### Phrases -/

/-- Things that are told within a list inside of a match. -/
def Items {α : Type} (view : Phrase → Option α) (m : Phrase) (xs : List α) : Prop :=
  ∀ x ∈ xs, ∃ l ∈ m.inner, ∃ k ∈ l.inner, view k = some x

/-- What a match of a statement is made of. -/
inductive StatementOf (m : Phrase) : Statement → Prop
  | batch {bindings : List BindingPhrase} {body : Phrase} {b : Block} (hr : m.rule = .batchStmt)
    (hitems : Items binding? m bindings) (hbody : body ∈ m.inner) (hb : block? body = some b) :
    StatementOf m (.batch bindings b ⟨m.start, m.stop⟩)
  | call {name : Phrase} {rest : List Phrase} {args : List Argument} {nested : Option Block}
    (hr : m.rule = .callStmt) (hinner : m.inner = name :: rest) (hitems : Items argument? m args)
    (hn : ∀ b, nested = some b → ∃ body ∈ m.inner, block? body = some b) :
    StatementOf m (.call name.text args nested ⟨m.start, m.stop⟩)

/-- What a match of an item of a definition file is made of. -/
inductive ItemOf (m : Phrase) : Item → Prop
  | workers {word : Phrase} {names : List Phrase} (hr : m.rule = .workersDecl)
    (hinner : m.inner = word :: names) : ItemOf m (.workers (names.map Match.text))
  | definition {word name body : Phrase} {rest : List Phrase} {parameters : List Parameter}
    {b : Block} (hr : m.rule = .definition) (hinner : m.inner = word :: name :: rest)
    (hitems : Items parameter? m parameters) (hbody : body ∈ m.inner) (hb : block? body = some b) :
    ItemOf m (.definition ⟨name.text, parameters, b, ⟨m.start, m.stop⟩⟩)

section

variable {α : Type} {view : Phrase → Option α} {m : Phrase} {xs : List α}

theorem forall₂_of_mapM {ms : List Phrase} (h : ms.mapM view = some xs) :
    List.Forall₂ (fun k x => view k = some x) ms xs := by
  induction ms generalizing xs with
  | nil =>
    obtain rfl : [] = xs := by simpa using h
    exact .nil
  | cons k ms ih =>
    rw [List.mapM_cons] at h
    obtain ⟨x, hx, h⟩ := Option.bind_eq_some_iff.mp h
    obtain ⟨others, hothers, h⟩ := Option.bind_eq_some_iff.mp h
    obtain rfl : x :: others = xs := by simpa using h
    exact .cons hx (ih hothers)

theorem mem_of_forall₂ {β : Type} {R : α → β → Prop} {ys : List β} (h : List.Forall₂ R xs ys)
    {y : β} (hy : y ∈ ys) : ∃ x ∈ xs, R x y := by
  obtain ⟨i, hi, rfl⟩ := List.getElem_of_mem hy
  have hlen := h.length_eq
  exact ⟨xs[i], List.getElem_mem _, h.get (hlen ▸ hi) hi⟩

theorem pairwise_of_forall₂ {β : Type} {R : α → β → Prop} {S : α → α → Prop} {T : β → β → Prop}
    {as : List α} {bs : List β} (h : List.Forall₂ R as bs) (has : as.Pairwise S)
    (hT : ∀ a a' b b', R a b → R a' b' → S a a' → T b b') : bs.Pairwise T := by
  induction h with
  | nil => exact .nil
  | cons hab hrest ih =>
    obtain ⟨hfirst, hothers⟩ := List.pairwise_cons.mp has
    refine .cons (fun b' hb' => ?_) (ih hothers)
    obtain ⟨a', ha', hab'⟩ := mem_of_forall₂ hrest hb'
    exact hT _ a' _ b' hab hab' (hfirst a' ha')

theorem Items.none : Items view m [] := nofun

theorem Items.of_mapM {r : RuleName} {a b : Nat} {text : List Char} {ks : List Phrase}
    (hl : .mk r a b text ks ∈ m.inner) (h : ks.mapM view = some xs) : Items view m xs := by
  intro x hx
  obtain ⟨k, hk, hview⟩ := mem_of_forall₂ (forall₂_of_mapM h) hx
  exact ⟨_, hl, k, hk, hview⟩

end

variable {m : Phrase}

theorem statementOf {s : Statement} (h : statement? m = some s) : StatementOf m s := by
  unfold statement? at h
  split at h
  · obtain ⟨bs, hbs, h⟩ := Option.bind_eq_some_iff.mp h
    obtain ⟨b, hb, h⟩ := Option.bind_eq_some_iff.mp h
    cases h
    exact .batch rfl (.of_mapM (List.mem_cons_of_mem _ List.mem_cons_self) hbs)
      (by simp [Match.inner]) hb
  · obtain ⟨b, hb, h⟩ := Option.bind_eq_some_iff.mp h
    cases h
    exact .batch rfl .none (by simp [Match.inner]) hb
  · obtain ⟨args, hargs, h⟩ := Option.bind_eq_some_iff.mp h
    obtain ⟨b, hb, h⟩ := Option.bind_eq_some_iff.mp h
    cases h
    refine .call rfl rfl (.of_mapM (List.mem_cons_of_mem _ List.mem_cons_self) hargs) ?_
    rintro _ ⟨⟩
    exact ⟨_, by simp [Match.inner], hb⟩
  · obtain ⟨args, hargs, h⟩ := Option.bind_eq_some_iff.mp h
    cases h
    exact .call rfl rfl (.of_mapM (List.mem_cons_of_mem _ List.mem_cons_self) hargs)
      fun _ hn => by cases hn
  · obtain ⟨b, hb, h⟩ := Option.bind_eq_some_iff.mp h
    cases h
    refine .call rfl rfl .none ?_
    rintro _ ⟨⟩
    exact ⟨_, by simp [Match.inner], hb⟩
  · cases h
    exact .call rfl rfl .none fun _ hn => by cases hn
  · cases h

theorem statements_of_block {b : Block} (h : block? m = some b) :
    ∃ ss, statements? m.inner = some ss ∧ b = .mk ss ⟨m.start, m.stop⟩ := by
  unfold block? at h
  split at h
  · obtain ⟨ss, hss, h⟩ := Option.bind_eq_some_iff.mp h
    exact ⟨ss, hss, (Option.some.inj h).symm⟩
  · obtain ⟨ss, hss, h⟩ := Option.bind_eq_some_iff.mp h
    exact ⟨ss, hss, (Option.some.inj h).symm⟩
  · cases h

/-- The statements of a block come one by one of matches in it. -/
theorem forall₂_of_statements {ms : List Phrase} {ss : List Statement}
    (h : statements? ms = some ss) :
    ∃ ks, ks.Sublist ms ∧ List.Forall₂ (fun k s => statement? k = some s) ks ss := by
  induction ms generalizing ss with
  | nil =>
    rw [statements?] at h
    obtain rfl := Option.some.inj h
    exact ⟨[], .slnil, .nil⟩
  | cons k ms ih =>
    rw [statements?] at h
    split at h
    · obtain ⟨ks, hks, hall⟩ := ih h
      exact ⟨ks, hks.cons _, hall⟩
    · obtain ⟨s, hs, h⟩ := Option.bind_eq_some_iff.mp h
      obtain ⟨others, hothers, h⟩ := Option.bind_eq_some_iff.mp h
      obtain rfl := Option.some.inj h
      obtain ⟨ks, hks, hall⟩ := ih hothers
      exact ⟨k :: ks, hks.cons_cons _, .cons hs hall⟩

theorem itemOf {i : Item} (h : item? m = some i) : ItemOf m i := by
  unfold item? at h
  split at h
  · cases h
    exact .workers rfl rfl
  · obtain ⟨ps, hps, h⟩ := Option.bind_eq_some_iff.mp h
    obtain ⟨b, hb, h⟩ := Option.bind_eq_some_iff.mp h
    cases h
    exact .definition rfl rfl
      (.of_mapM (List.mem_cons_of_mem _ (List.mem_cons_of_mem _ List.mem_cons_self)) hps)
      (by simp [Match.inner]) hb
  · obtain ⟨b, hb, h⟩ := Option.bind_eq_some_iff.mp h
    cases h
    exact .definition rfl rfl .none (by simp [Match.inner]) hb
  · cases h

theorem forall₂_of_items {items : List Item} (h : items? m = some items) :
    ∃ ks, ks.Sublist m.inner ∧ List.Forall₂ (fun k i => item? k = some i) ks items := by
  unfold items? at h
  split at h
  · exact ⟨_, List.filter_sublist, forall₂_of_mapM h⟩
  · cases h

end Syntax

open Syntax

/-! ### Trees -/

variable {lines : Lines} {text : List Char}

theorem nodesOf_eq_map (ss : List Statement) :
    nodesOf lines ss = ss.map (Statement.node lines) := by
  induction ss with
  | nil => rfl
  | cons s ss ih => rw [nodesOf, ih, List.map_cons]

theorem allSound_iff {ss : List Statement} : AllSound ss ↔ ∀ s ∈ ss, s.Sound := by
  induction ss with
  | nil => simp [AllSound]
  | cons s ss ih => rw [AllSound, ih, List.forall_mem_cons]

/-- Matches that stand in a text, with all that is inside of them. -/
abbrev Standing (text : List Char) (m : Phrase) : Prop := m.Each (grammar.Stands text)

/-- What holds of the node of every statement, and of every sequence, holds of all nodes. -/
theorem all_of_standing {P : Node → Prop}
    (hstatement : ∀ m s, Standing text m → StatementOf m s → s.Sound → P (s.node lines))
    (hsequence : ∀ m ss, Standing text m → statements? m.inner = some ss → 2 ≤ ss.length →
      (∀ s ∈ ss, s.Sound) →
      P (.sequence (ss.map (Statement.node lines)) (Extent.span ⟨m.start, m.stop⟩ lines)))
    (m : Phrase) : Standing text m →
      (∀ s, StatementOf m s → s.Sound → (s.node lines).All P) ∧
        ∀ b, block? m = some b → b.Sound → (b.node lines).All P := by
  induction m using Match.induction with
  | h m ih =>
    intro hm
    have hbody : ∀ body b, body ∈ m.inner → block? body = some b → b.Sound →
        (b.node lines).All P := fun body b hin hb hs => (ih body hin (hm.inner hin)).2 b hb hs
    constructor
    · intro s hs hsound
      have hself := hstatement m s hm hs hsound
      cases hs with
      | batch hr hitems hin hb =>
        rw [Statement.Sound] at hsound
        rw [Statement.node] at hself ⊢
        exact Node.all_batch_iff.mpr ⟨hself, hbody _ _ hin hb hsound.2.2⟩
      | @call name rest args nested hr hinner hitems hn =>
        cases nested with
        | none =>
          rw [Statement.node] at hself ⊢
          exact Node.all_call_iff.mpr ⟨hself, fun _ hn => by cases hn⟩
        | some b =>
          rw [Statement.Sound] at hsound
          rw [Statement.node] at hself ⊢
          refine Node.all_call_iff.mpr ⟨hself, ?_⟩
          rintro _ ⟨⟩
          obtain ⟨body, hin, hb⟩ := hn b rfl
          exact hbody body b hin hb hsound.2
    · intro b hb hsound
      obtain ⟨ss, hss, rfl⟩ := statements_of_block hb
      obtain ⟨ks, hks, hall⟩ := forall₂_of_statements hss
      rw [Block.Sound, allSound_iff] at hsound
      have hsteps : ∀ s ∈ ss, (s.node lines).All P := by
        intro s hs
        obtain ⟨k, hk, hview⟩ := mem_of_forall₂ hall hs
        have hin := hks.mem hk
        exact (ih k hin (hm.inner hin)).1 s (statementOf hview) (hsound.2 s hs)
      rw [Block.node, nodesOf_eq_map]
      -- One statement stands for itself, so only two make a sequence.
      cases ss with
      | nil => exact absurd rfl hsound.1
      | cons s ss =>
        cases ss with
        | nil => exact hsteps s (List.mem_singleton_self s)
        | cons s' ss =>
          refine Node.all_sequence_iff.mpr ⟨?_, List.forall_mem_map.mpr hsteps⟩
          exact hsequence m _ hm hss (Nat.le_add_left 2 _) hsound.2

/-- The definitions of a file come of matches that stand in the text, and keep the rules. -/
theorem definition_of_mem {m : Phrase} {items : List Item} (hm : Standing text m)
    (h : items? m = some items) (hs : ∀ i ∈ items, i.Sound) {d : Definition}
    (hd : d ∈ (fileOf lines items).definitions) :
    ∃ k phrase, Standing text k ∧ item? k = some (.definition phrase) ∧ phrase.Sound ∧
      d = phrase.definition lines := by
  obtain ⟨ks, hks, hall⟩ := forall₂_of_items h
  obtain ⟨i, hi, hid⟩ := List.mem_filterMap.mp hd
  obtain ⟨k, hk, hview⟩ := mem_of_forall₂ hall hi
  cases i with
  | workers names => cases hid
  | definition phrase =>
    have hsame := Option.some.inj hid
    exact ⟨k, phrase, hm.inner (hks.mem hk), hview, hs _ hi, hsame.symm⟩

/-- What is read from a text comes of a match that stands in it. -/
theorem standing_of_read {α : Type} {r : RuleName} {p : Rule α} {view : Phrase → Option α} {a : α}
    (hp : Realizes .spaced (.rule r) p (View.one view) ⟨0, text⟩) (h : read p text = .ok a) :
    ∃ m, Standing text m ∧ view m = some a := by
  rcases hp.cases with ⟨hf, -⟩ | ⟨a', c', ms, hf, hparse, m, rfl, hview⟩
  · simp [read, hf] at h
  · obtain rfl : a' = a := by simpa [read, hf] using h
    have hlaid := hparse.laid (.refl _) _ rfl
    exact ⟨m, hlaid.each m (List.mem_singleton_self m), hview⟩

end Surface

open Surface Syntax

variable {source : String}

/-- An accepted body is the tree of a block that stands in the text and keeps the rules. -/
theorem standing_of_parseBody {n : Node} (h : parseBody source = .ok n) :
    ∃ m b, Standing source.toList m ∧ block? m = some b ∧ b.Sound ∧
      n = b.node (Lines.ofText source.toList) := by
  rw [parseBody] at h
  cases hread : read body source.toList with
  | error offset => simp [hread] at h
  | ok b =>
    simp only [hread, (b.judges_toNode _ .body).eq_ok_iff] at h
    obtain ⟨m, hm, hview⟩ := standing_of_read realizes_body hread
    exact ⟨m, b, hm, hview, h⟩

theorem standing_of_parseFile {file : DefinitionFile} (h : parseFile source = .ok file) :
    ∃ m items, Standing source.toList m ∧ items? m = some items ∧ (∀ i ∈ items, i.Sound) ∧
      file = fileOf (Lines.ofText source.toList) items := by
  rw [parseFile] at h
  cases hread : read program source.toList with
  | error offset => simp [hread] at h
  | ok items =>
    simp only [hread, (judges_readItems _ items).eq_ok_iff] at h
    obtain ⟨m, hm, hview⟩ := standing_of_read realizes_program hread
    exact ⟨m, items, hm, hview, h⟩

end Workflow
