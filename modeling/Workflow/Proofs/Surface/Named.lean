import Workflow.Proofs.Surface.Derivation
import Workflow.Proofs.Surface.Standing
import Workflow.Proofs.Surface.Writing

/-!
The words of a derivation. What is taken for an identifier is one, so the names, keys and symbols
that stand in a text have no keyword for a segment. And what a phrase begins with stands where the
phrase does.
-/

namespace Workflow.Surface

/-! ### Lexemes -/

section

variable {w n cs rest : List Char}

theorem isIdentifier_of_identifier (h : identifier cs = some (w, rest)) : IsIdentifier w := by
  cases cs with
  | nil => cases h
  | cons c cs =>
    rw [Syntax.identifier_cons, Option.ite_none_right_eq_some, Bool.and_eq_true] at h
    obtain ⟨⟨hstart, hkey⟩, h⟩ := h
    obtain ⟨rfl, -⟩ := Prod.mk.inj (Option.some.inj h)
    have hpos := Syntax.isIdentChar_of_isIdentStart hstart
    refine ⟨c, cs.takeWhile isIdentChar, List.takeWhile_cons_of_pos hpos, hstart, ?_,
      by simpa using hkey⟩
    exact List.all_eq_true.mp List.all_takeWhile

theorem isName_segments (fuel : Nat) (hw : IsIdentifier w) :
    IsName (w ++ (segments fuel cs).1) := by
  induction fuel generalizing w cs with
  | zero =>
    rw [segments, List.append_nil]
    exact .one hw
  | succ fuel ih =>
    unfold segments
    split
    · split
      · rename_i hi
        exact .cons hw (ih (isIdentifier_of_identifier hi))
      · rw [List.append_nil]
        exact .one hw
    · rw [List.append_nil]
      exact .one hw

theorem isName_of_name (h : name cs = some (n, rest)) : IsName n := by
  rw [name] at h
  split at h
  · rename_i hi
    obtain ⟨rfl, -⟩ := Prod.mk.inj (Option.some.inj h)
    exact isName_segments _ (isIdentifier_of_identifier hi)
  · cases h

end

namespace Syntax

open PegGrammar (Parses)

variable {text : List Char} {m : Phrase} {r r' : RuleName}

/-! ### Words -/

/-- Where a word was told, the rule of that word takes it. -/
theorem found_of_stands {p : Rule (List Char)} {name : List Char → List Char}
    (hm : grammar.Stands text m) (hr : m.rule = r) (ht : ∀ c, Tells r p name c)
    (hmode : ∀ mode, r.kind.mode mode = r.kind.mode .spaced)
    (htold : r.kind.isTold .spaced = true) : ∃ c c', (p c).found = some (name m.text, c') := by
  cases hm with
  | @mk mode r' c c' inner _ _ h =>
    obtain rfl : r' = r := hr
    rw [show grammar.kind r' = r'.kind from rfl, hmode mode] at h
    have htaken := parses_told h htold
    rcases ht c with ⟨-, hnone⟩ | ⟨d, word, inner', hfound, hparse⟩
    · cases htaken.unique hnone
    · have hsame := htaken.unique hparse
      simp only [Option.some.injEq, Prod.mk.injEq, List.cons.injEq, Match.mk.injEq] at hsame
      exact ⟨c, d, by rw [hfound, Match.text, hsame.1.1.2.2.2.1]⟩

theorem takes_of_stands {l : Lexeme} {name : List Char → List Char}
    (hm : grammar.Stands text m) (hr : m.rule = r) (ht : ∀ c, Tells r (Rule.lexeme l) name c)
    (hmode : ∀ mode, r.kind.mode mode = r.kind.mode .spaced)
    (htold : r.kind.isTold .spaced = true) : ∃ cs rest, l cs = some (name m.text, rest) := by
  obtain ⟨c, c', hfound⟩ := found_of_stands hm hr ht hmode htold
  rw [Rule.found_lexeme, Option.map_eq_some_iff] at hfound
  obtain ⟨⟨word, rest⟩, hword, hsame⟩ := hfound
  obtain ⟨rfl, -⟩ := Prod.mk.inj hsame
  exact ⟨c.rest, rest, hword⟩

theorem isName_of_stands (hm : grammar.Stands text m) (hr : m.rule = .workerName) :
    IsName m.text := by
  have ht := tells_lexeme lexes_name (r := .workerName) rfl rfl
  obtain ⟨cs, rest, h⟩ := takes_of_stands hm hr ht (fun _ => rfl) rfl
  exact isName_of_name h

theorem isIdentifier_key (hm : grammar.Stands text m) (hr : m.rule = .argKey) :
    IsIdentifier (keyName m.text) := by
  obtain ⟨cs, rest, h⟩ := takes_of_stands hm hr tells_key (fun _ => rfl) rfl
  exact isIdentifier_of_identifier (key_takes h).1

theorem isIdentifier_symbol (hm : grammar.Stands text m) (hr : m.rule = .symbol) :
    IsIdentifier (symbolName m.text) := by
  obtain ⟨c, c', hfound⟩ := found_of_stands hm hr tells_symbol (fun _ => rfl) rfl
  rw [symbol, Rule.found_named, Rule.found_bind, Option.bind_eq_some_iff] at hfound
  obtain ⟨colon, -, hfound⟩ := hfound
  rw [Rule.found_lexeme, Option.map_eq_some_iff] at hfound
  obtain ⟨⟨word, rest⟩, hword, hsame⟩ := hfound
  obtain ⟨rfl, -⟩ := Prod.mk.inj hsame
  exact isIdentifier_of_identifier hword

theorem text_of_kwBatch (hm : grammar.Stands text m) (hr : m.rule = .kwBatch) :
    m.text = "batch".toList := by
  have ht := tells_keyword (w := "batch") (r := .kwBatch) (by decide) rfl rfl
  obtain ⟨cs, rest, h⟩ := takes_of_stands hm hr ht (fun _ => rfl) rfl
  obtain ⟨hkeyword, htext, -⟩ := keyword_eq_some_iff.mp h
  exact htext.trans hkeyword.symm

/-! ### Phrases -/

/-- Where blanks may stand, or within a symbol or a key, words are told. -/
theorem isTold_word {mode : PegMode} (h : mode ≠ .word) :
    RuleKind.word.isTold mode = true ∧ RuleKind.compact.isTold mode = true :=
  ⟨decide_eq_true h, rfl⟩

/-- A phrase that begins with a word begins where the word does. -/
theorem first_of_stands {e : Expression} (hm : grammar.Stands text m) (hr : m.rule = r)
    (hk : r.kind = .normal) (he : r.expression = .seq (.rule r') e)
    (ht : ∀ mode, mode ≠ .word → r'.kind.isTold mode = true) :
    ∃ k rest, m.inner = k :: rest ∧ k.rule = r' ∧ k.start = m.start ∧
      ∃ mode c c', mode ≠ .word ∧ Parses grammar mode e c (some (rest, c')) := by
  cases hm with
  | @mk mode r₁ c c' inner _ htold h =>
    obtain rfl : r₁ = r := hr
    rw [show grammar.kind r₁ = r₁.kind from rfl, hk] at htold h
    have hmode : mode ≠ .word := of_decide_eq_true htold
    rw [show grammar.body r₁ = r₁.expression from rfl, he] at h
    obtain ⟨ms, rest, c₁, c₂, hfirst, hrest, rfl⟩ := h.seq_some
    obtain ⟨parts, rfl⟩ := hfirst.rule_some (ht mode hmode)
    exact ⟨_, rest, rfl, rfl, rfl, mode, c₂, c', hmode, hrest⟩

theorem name_of_callStmt (hm : grammar.Stands text m) (hr : m.rule = .callStmt) :
    ∃ k rest, m.inner = k :: rest ∧ k.rule = .workerName ∧ k.start = m.start := by
  obtain ⟨k, rest, hinner, hk, hstart, -⟩ :=
    first_of_stands hm hr rfl rfl fun _ hmode => (isTold_word hmode).1
  exact ⟨k, rest, hinner, hk, hstart⟩

theorem word_of_batchStmt (hm : grammar.Stands text m) (hr : m.rule = .batchStmt) :
    ∃ k rest, m.inner = k :: rest ∧ k.rule = .kwBatch ∧ k.start = m.start := by
  obtain ⟨k, rest, hinner, hk, hstart, -⟩ :=
    first_of_stands hm hr rfl rfl fun _ hmode => (isTold_word hmode).1
  exact ⟨k, rest, hinner, hk, hstart⟩

theorem key_of_keywordArg (hm : grammar.Stands text m) (hr : m.rule = .keywordArg) :
    ∃ k rest, m.inner = k :: rest ∧ k.rule = .argKey := by
  obtain ⟨k, rest, hinner, hk, -⟩ :=
    first_of_stands hm hr rfl rfl fun _ hmode => (isTold_word hmode).2
  exact ⟨k, rest, hinner, hk⟩

theorem parts_of_binding (hm : grammar.Stands text m) (hr : m.rule = .binding) :
    ∃ list element, m.inner = [list, element] ∧ list.rule = .argKey ∧ element.rule = .symbol := by
  obtain ⟨list, rest, hinner, hlist, -, mode, c, c', hmode, h⟩ :=
    first_of_stands hm hr rfl rfl fun _ hmode => (isTold_word hmode).2
  obtain ⟨parts, rfl⟩ := h.rule_some (isTold_word hmode).2
  exact ⟨list, _, hinner, hlist, rfl⟩

theorem name_of_definition (hm : grammar.Stands text m) (hr : m.rule = .definition) :
    ∃ k name rest, m.inner = k :: name :: rest ∧ name.rule = .workerName := by
  obtain ⟨k, rest, hinner, -, -, mode, c, c', hmode, h⟩ :=
    first_of_stands hm hr rfl rfl fun _ hmode => (isTold_word hmode).1
  obtain ⟨ms, rest, c₁, c₂, hname, -, rfl⟩ := h.seq_some
  obtain ⟨parts, rfl⟩ := hname.rule_some (isTold_word hmode).1
  exact ⟨k, _, rest, hinner, rfl⟩

theorem names_of_workersDecl (hm : grammar.Stands text m) (hr : m.rule = .workersDecl) :
    ∃ k names, m.inner = k :: names ∧ ∀ n ∈ names, n.rule = .workerName := by
  obtain ⟨k, names, hinner, -, -, mode, c, c', hmode, h⟩ :=
    first_of_stands hm hr rfl rfl fun _ hmode => (isTold_word hmode).1
  have hname : ∀ {d d' ms}, Parses grammar mode (.rule .workerName) d (some (ms, d')) →
      ∀ n ∈ ms, n.rule = .workerName := by
    intro d d' ms h n hn
    obtain ⟨parts, rfl⟩ := h.rule_some (isTold_word hmode).1
    rw [List.mem_singleton.mp hn]
    rfl
  obtain ⟨ms, others, c₁, c₂, hfirst, hothers, rfl⟩ := h.seq_some
  refine ⟨k, _, hinner, List.forall_mem_append.mpr ⟨hname hfirst, fun n hn => ?_⟩⟩
  obtain ⟨d, d', round, hround, hn⟩ := hothers.star_some hn
  obtain ⟨comma, item, d₁, d₂, hcomma, hitem, rfl⟩ := hround.seq_some
  cases hcomma
  exact hname hitem n hn

end Syntax

end Workflow.Surface
