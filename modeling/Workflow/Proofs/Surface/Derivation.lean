import Workflow.Proofs.Surface.Realizes

/-!
The rules of the language realize the grammar. Literals and blocks nest, so their rules are taken
up to a depth, which the length of the rest bounds.
-/

namespace Workflow.Surface

namespace Syntax

open PegGrammar (Parses)

variable {c : Cursor}

/-! ### Literals -/

theorem View.row.literals? {ms : List Phrase} {ls : List Literal}
    (h : View.row (View.one literal?) ms ls) : Syntax.literals? ms = some ls := by
  induction h with
  | nil => rfl
  | cons h _ ih =>
    obtain ⟨m, rfl, hm⟩ := h
    simp [Syntax.literals?, hm, ih]

/-- What an array is told with. -/
def arrayView : View Literal := fun ms l => (literals? ms).map .array = some l

theorem realizes_array {p : Rule Literal}
    (hp : ∀ c', c'.rest.length < c.rest.length →
      Realizes .spaced (.rule .literal) p (View.one literal?) c') :
    Realizes .spaced (.rule .array) (array p) (View.one literal?) c := by
  have hbody : Realizes .spaced RuleName.array.expression (do
      Rule.char '['
      Rule.skip
      let items ← Rule.optional (Rule.commaSeparated p)
      Rule.skip
      Rule.char ']'
      pure (.array (items.getD []))) arrayView c := by
    refine .seq (e := .text ['[']) .char fun _ ms c' hbracket hms => ?_
    obtain rfl : ms = [] := hms
    have hlt : c'.skipped.rest.length < c.rest.length :=
      Nat.lt_of_le_of_lt c'.length_skipped_le (hbracket.length_lt (.text nofun))
    refine .seq (.opt (.commaList fun d hd => hp d (Nat.lt_of_le_of_lt hd hlt)))
      fun items ms d _ hitems => .map (V := View.nothing) (.char (x := ']')) fun ms' _ hms' => ?_
    obtain rfl : ms' = [] := hms'
    cases items with
    | none =>
      obtain rfl : ms = [] := hitems
      rfl
    | some ls => simp [arrayView, View.row.literals? hitems]
  refine .congr (.told hbody rfl fun ms l _ _ _ hms => ⟨_, rfl, ?_⟩) (Rule.found_named _)
  rw [literal?]
  exact hms

theorem realizes_literal_of {p : Rule Literal}
    (hp : Realizes .spaced (.rule .array) p (View.one literal?) c) :
    Realizes .spaced (.rule .literal) (Rule.orElse plainLiteral p) (View.one literal?) c := by
  have hstring := (tells_lexeme lexes_string (r := .string) rfl rfl c).located
    (g := Literal.token) (W := View.one literal?) fun _ _ _ => ⟨_, rfl, rfl⟩
  have hnumber := (tells_lexeme lexes_number (r := .number) rfl rfl c).located
    (g := Literal.token) (W := View.one literal?) fun _ _ _ => ⟨_, rfl, rfl⟩
  have hboolean := (tells_lexeme lexes_boolean (r := .boolean) rfl rfl c).realizes.map
    (g := fun text => .bool (text == "true".toList)) (W := View.one literal?) <| by
      rintro _ _ ⟨a, b, text, inner, rfl, rfl⟩
      exact ⟨_, rfl, rfl⟩
  have hnil := (tells_lexeme (lexes_keyword (w := "nil") (by decide)) (r := .nil) rfl rfl
    c).realizes.map (g := fun _ => .nil) (W := View.one literal?) <| by
      rintro _ _ ⟨a, b, text, inner, rfl, rfl⟩
      exact ⟨_, rfl, rfl⟩
  have hbody : Realizes .spaced RuleName.literal.expression _ (View.one literal?) c :=
    .alt hstring (.alt hnumber (.alt hboolean (.alt hnil hp)))
  refine .congr (.told hbody rfl ?_) ?_
  · rintro _ l _ _ _ ⟨m, rfl, hm⟩
    exact ⟨_, rfl, by rw [literal?, hm]⟩
  · simp only [plainLiteral, Rule.found_orElse, Option.or_assoc]

theorem realizes_literalUpTo (depth : Nat) (hc : c.rest.length ≤ depth) :
    Realizes .spaced (.rule .literal) (literalUpTo depth) (View.one literal?) c := by
  induction depth generalizing c with
  | zero =>
    have hrest := List.eq_nil_of_length_eq_zero (Nat.le_zero.mp hc)
    have hn : Refuses .spaced (.rule .array) [] := .rule (.seq_left (.text (t := ['[']) nofun))
    rw [← hrest] at hn
    refine (realizes_literal_of (p := Rule.fail) (.of_none rfl (hn c.offset))).congr ?_
    rw [Rule.found_orElse]
    exact Option.or_none.symm
  | succ depth ih =>
    exact realizes_literal_of (realizes_array fun c' hc' => ih (by omega))

theorem realizes_literal (c : Cursor) :
    Realizes .spaced (.rule .literal) literal (View.one literal?) c :=
  (realizes_literalUpTo c.rest.length (Nat.le_refl _)).congr rfl

/-! ### Arguments and bindings -/

/-- A rule told with the phrases of a list. -/
def View.list {α : Type} (r : RuleName) (view : Phrase → Option α) : View (List α) := fun ms as =>
  ∃ a b text items, ms = [.mk r a b text items] ∧ items.mapM view = some as

theorem realizes_list {α : Type} {r : RuleName} {item : Expression} {p : Rule α}
    {view : Phrase → Option α} (hr : r.kind = .normal) (he : r.expression = commaList item)
    (hp : ∀ c', Realizes .spaced item p (View.one view) c') :
    Realizes .spaced (.rule r) (Rule.commaSeparated p) (View.list r view) c := by
  refine .told (V := (View.one view).row) ?_ hr fun ms as a b text h =>
    ⟨a, b, text, ms, rfl, h.mapM⟩
  rw [he]
  exact .commaList fun c' _ => hp c'

theorem argValue?_of_literal? {m : Phrase} {l : Literal} (h : literal? m = some l) :
    argValue? m = some (.literal l) := by
  unfold argValue?
  split
  · simp [literal?] at h
  · rw [h]
    rfl

theorem realizes_keyed (c : Cursor) :
    Realizes .spaced (.rule .keywordArg) keyed (View.one argument?) c := by
  refine .node (V := fun ms x => ∃ k v, ms = [k, v] ∧ keyName k.text = x.1 ∧ argValue? v = some x.2)
    (.seq (tells_key c).realizes fun k ms c' _ hk => .map (V := View.one argValue?) (.alt
      (.map (tells_symbol _).realizes ?_) (.map (realizes_literal _) ?_)) ?_) rfl ?_
  · rintro _ _ ⟨a, b, text, inner, rfl, rfl⟩
    exact ⟨_, rfl, rfl⟩
  · rintro _ _ ⟨m, rfl, hm⟩
    exact ⟨m, rfl, argValue?_of_literal? hm⟩
  · rintro _ v ⟨m, rfl, hm⟩
    obtain ⟨a, b, text, inner, rfl, hname⟩ := hk
    exact ⟨_, m, rfl, hname, hm⟩
  · rintro _ ⟨k, v⟩ stop text ⟨mk, mv, rfl, rfl, hv⟩
    exact ⟨_, rfl, by simp [argument?, hv]⟩

theorem realizes_argument (c : Cursor) :
    Realizes .spaced argument Surface.argument (View.one argument?) c :=
  .alt (realizes_keyed c) ((tells_symbol c).located fun _ _ _ => ⟨_, rfl, rfl⟩)

theorem realizes_binding (c : Cursor) :
    Realizes .spaced (.rule .binding) binding (View.one binding?) c := by
  refine .node
    (V := fun ms x => ∃ k v, ms = [k, v] ∧ keyName k.text = x.1 ∧ symbolName v.text = x.2)
    (.seq (tells_key c).realizes fun k ms c' _ hk => .map (tells_symbol _).realizes ?_) rfl ?_
  · rintro _ _ ⟨a, b, text, inner, rfl, rfl⟩
    obtain ⟨a, b, text, inner, rfl, hname⟩ := hk
    exact ⟨_, _, rfl, hname, rfl⟩
  · rintro _ ⟨k, v⟩ stop text ⟨mk, mv, rfl, rfl, rfl⟩
    exact ⟨_, rfl, rfl⟩

/-! ### Statements -/

theorem tells_keyword {r : RuleName} {w : String} (hc : w.toList.all isIdentChar = true)
    (he : r.expression = words [w]) (hr : r.kind = .word) (c : Cursor) :
    Tells r (Rule.lexeme (keyword w)) id c :=
  tells_lexeme (he ▸ lexes_keyword hc) (by rw [hr]; rfl) (by rw [hr]; rfl) c

/-- A block that is told. -/
def blockView : View Block := fun ms b =>
  ∃ x y text parts, ms = [.mk .block x y text parts] ∧ block? (.mk .block x y text parts) = some b

/-- A statement that is told. -/
def statementView : View Statement := fun ms s =>
  ∃ m, ms = [m] ∧ isMark m.rule = false ∧ statement? m = some s

theorem realizes_batch {p : Rule Block}
    (hp : ∀ c', c'.rest.length < c.rest.length → Realizes .spaced (.rule .block) p blockView c') :
    Realizes .spaced (.rule .batchStmt) (batch p) statementView c := by
  refine .node (V := fun ms x => ∀ a b text, statement? (.mk .batchStmt a b text ms) =
    some (.batch x.1 x.2 ⟨a, b⟩)) ?_ rfl fun ms x stop text h => ⟨_, rfl, rfl, h _ _ _⟩
  refine .seq (tells_keyword (w := "batch") (by decide) rfl rfl c).realizes
    fun _ ms c' hkey hms => ?_
  have hlt : c'.rest.length < c.rest.length := hkey.length_lt (.rule (.left (.text nofun)))
  refine .seq (.opt (realizes_list rfl rfl realizes_binding)) fun bs ms' d hbs hms' =>
    .map (hp _ ?_) ?_
  · exact Nat.lt_of_le_of_lt (Nat.le_trans d.length_skipped_le (Nat.le_trans (hbs.length_le _ rfl)
      c'.length_skipped_le)) hlt
  · rintro _ body ⟨x, y, t, parts, rfl, hbody⟩ a b text
    obtain ⟨_, _, _, _, rfl, -⟩ := hms
    cases bs with
    | none =>
      obtain rfl : ms' = [] := hms'
      simp [statement?, hbody]
    | some bs =>
      obtain ⟨_, _, _, items, rfl, hitems⟩ := hms'
      simp [statement?, hbody, hitems]

theorem takes_name : grammar.Takes (.rule .workerName) :=
  .rule (.left (.rule (.right (.left (.alt .one (.text nofun))))))

theorem takes_statement : grammar.Takes (.rule .statement) :=
  .rule (.alt (.rule (.left (.rule (.left (.text nofun))))) (.rule (.left takes_name)))

theorem realizes_call {p : Rule Block}
    (hp : ∀ c', c'.rest.length < c.rest.length → Realizes .spaced (.rule .block) p blockView c') :
    Realizes .spaced (.rule .callStmt) (call p) statementView c := by
  refine .node (V := fun ms x => ∀ a b text, statement? (.mk .callStmt a b text ms) =
    some (.call x.1 x.2.1 x.2.2 ⟨a, b⟩)) ?_ rfl fun ms x stop text h => ⟨_, rfl, rfl, h _ _ _⟩
  refine .seq (tells_lexeme lexes_name rfl rfl c).realizes fun n ms c' hname hms => ?_
  have hlt : c'.rest.length < c.rest.length := hname.length_lt takes_name
  refine .seq (.opt (realizes_list rfl rfl realizes_argument)) fun args ms' d hargs hms' =>
    .map (.opt (hp _ ?_)) ?_
  · exact Nat.lt_of_le_of_lt (Nat.le_trans d.length_skipped_le (Nat.le_trans (hargs.length_le _ rfl)
      c'.length_skipped_le)) hlt
  · intro ms'' nested hms'' a b text
    obtain ⟨_, _, _, _, rfl, rfl⟩ := hms
    cases args with
    | none =>
      obtain rfl : ms' = [] := hms'
      cases nested with
      | none =>
        obtain rfl : ms'' = [] := hms''
        rfl
      | some block =>
        obtain ⟨x, y, t, parts, rfl, hblock⟩ := hms''
        simp [statement?, hblock, Match.text]
    | some args =>
      obtain ⟨_, _, _, items, rfl, hitems⟩ := hms'
      cases nested with
      | none =>
        obtain rfl : ms'' = [] := hms''
        simp [statement?, hitems, Match.text]
      | some block =>
        obtain ⟨x, y, t, parts, rfl, hblock⟩ := hms''
        simp [statement?, hitems, hblock, Match.text]

theorem realizes_statement {p : Rule Block}
    (hp : ∀ c', c'.rest.length < c.rest.length → Realizes .spaced (.rule .block) p blockView c') :
    Realizes .spaced (.rule .statement) (statement p) statementView c :=
  .silent (.alt (realizes_batch hp) (realizes_call hp)) rfl

theorem statements?_mark {m : Phrase} {ms : List Phrase} (h : isMark m.rule = true) :
    statements? (m :: ms) = statements? ms := by
  rw [statements?, if_pos h]

/-- Statements in a row, with a mark behind them. -/
theorem View.row.statements? {ms : List Phrase} {mark : Phrase} {ss : List Statement}
    (h : View.row statementView ms ss) (hmark : isMark mark.rule = true) :
    Syntax.statements? (ms ++ [mark]) = some ss := by
  induction h with
  | nil => rw [List.nil_append, statements?_mark hmark, Syntax.statements?]
  | cons h _ ih =>
    obtain ⟨m, rfl, hm, hs⟩ := h
    rw [List.append_assoc, List.singleton_append, Syntax.statements?, hm]
    simp [hs, ih]

theorem realizes_blockUpTo (depth : Nat) (hc : c.rest.length ≤ depth) :
    Realizes .spaced (.rule .block) (blockUpTo depth) blockView c := by
  induction depth generalizing c with
  | zero =>
    have hrest := List.eq_nil_of_length_eq_zero (Nat.le_zero.mp hc)
    have hn : Refuses .spaced (.rule .block) [] :=
      .rule (.seq_left (.rule (.seq_left (.text fun _ => nofun))))
    rw [← hrest] at hn
    exact .of_none rfl (hn c.offset)
  | succ depth ih =>
    refine .node (V := fun ms ss => ∀ a b text, block? (.mk .block a b text ms) =
      some (.mk ss ⟨a, b⟩)) ?_ rfl fun ms x stop text h => ⟨_, _, _, _, rfl, h _ _ _⟩
    refine .seq (tells_keyword (w := "do") (by decide) rfl rfl c).realizes
      fun _ ms c' hkey hms => ?_
    have hlt : c'.rest.length < c.rest.length := hkey.length_lt (.rule (.left (.text nofun)))
    have hle := c'.length_skipped_le
    refine .seq (.star takes_statement (fun d hd => realizes_statement fun d' hd' => ih (by omega))
      (Cursor.skipped_skipped c')) fun ss ms' d _ hms' =>
        .map (tells_keyword (w := "end") (by decide) rfl rfl _).realizes ?_
    rintro _ _ ⟨_, _, _, _, rfl, -⟩ a b text
    obtain ⟨_, _, _, _, rfl, -⟩ := hms
    rw [block?, List.singleton_append, statements?_mark rfl, hms'.statements? rfl]
    rfl

theorem realizes_block (c : Cursor) : Realizes .spaced (.rule .block) block blockView c :=
  (realizes_blockUpTo c.rest.length (Nat.le_refl _)).congr rfl

/-! ### Files -/

/-- An item that is told. -/
def itemView : View Item := fun ms i => ∃ m, ms = [m] ∧ isMark m.rule = false ∧ item? m = some i

theorem View.row.texts {r : RuleName} {ms : List Phrase} {ts : List (List Char)}
    (h : View.row (View.word r id) ms ts) : ms.map Match.text = ts := by
  induction h with
  | nil => rfl
  | cons h _ ih =>
    obtain ⟨a, b, text, inner, rfl, rfl⟩ := h
    simp [ih, Match.text]

theorem realizes_workers (c : Cursor) :
    Realizes .spaced (.rule .workersDecl) workers itemView c := by
  refine .told (V := fun ms i => ∀ a b text, item? (.mk .workersDecl a b text ms) = some i) ?_ rfl
    fun ms i a b text h => ⟨_, rfl, rfl, h _ _ _⟩
  refine .seq (tells_keyword (w := "workers") (by decide) rfl rfl c).realizes fun _ ms _ _ hms =>
    .map (.commaList fun d _ => (tells_lexeme lexes_name rfl rfl d).realizes) ?_
  intro ms' names hms' a b text
  obtain ⟨_, _, _, _, rfl, -⟩ := hms
  simp [item?, View.row.texts hms']

theorem realizes_parameter (c : Cursor) :
    Realizes .spaced (.rule .symbol) parameter (View.one parameter?) c :=
  (tells_symbol c).located fun _ _ _ => ⟨_, rfl, rfl⟩

theorem realizes_definition (c : Cursor) :
    Realizes .spaced (.rule .definition) definition itemView c := by
  refine .node (V := fun ms x => ∀ a b text, item? (.mk .definition a b text ms) =
    some (.definition ⟨x.1, x.2.1, x.2.2, ⟨a, b⟩⟩)) ?_ rfl
    fun ms i stop text h => ⟨_, rfl, rfl, h _ _ _⟩
  refine .seq (tells_keyword (w := "superworker") (by decide) rfl rfl c).realizes
    fun _ ms _ _ hms =>
    .seq (tells_lexeme lexes_name rfl rfl _).realizes fun n ms' _ _ hms' =>
    .seq (.opt (realizes_list rfl rfl realizes_parameter)) fun ps ms'' _ _ hms'' =>
    .map (realizes_block _) ?_
  rintro _ body ⟨x, y, t, parts, rfl, hbody⟩ a b text
  obtain ⟨_, _, _, _, rfl, -⟩ := hms
  obtain ⟨_, _, _, _, rfl, rfl⟩ := hms'
  cases ps with
  | none =>
    obtain rfl : ms'' = [] := hms''
    simp [item?, hbody, Match.text]
  | some ps =>
    obtain ⟨_, _, _, items, rfl, hitems⟩ := hms''
    simp [item?, hbody, hitems, Match.text]

theorem realizes_atEnd (c : Cursor) :
    Realizes .spaced (.rule .endOfInput) atEnd (fun ms _ => ∃ m, ms = [m] ∧ isMark m.rule = true)
      c := by
  by_cases hc : c.rest = []
  · have hf : (atEnd c).found = some ((), c) := by simp [atEnd, hc]
    exact .of_some hf (parses_told (.stop hc) rfl) ⟨_, rfl, rfl⟩
  · exact .of_none (by simp [atEnd, hc]) (parses_rule_none (.stop_none hc))

/-- A text as a whole: what it holds in a row, and its end. -/
theorem realizes_whole {α : Type} {e : Expression} {p : Rule α} {V : View α} {text : List Char}
    (he : grammar.Takes e) (hp : ∀ c, Realizes .spaced e p V c) :
    Realizes .spaced (.seq .start (.seq (.star e) (.rule .endOfInput))) (whole p)
      (fun ms as => ∃ ms' mark, ms = ms' ++ [mark] ∧ isMark mark.rule = true ∧ V.row ms' as)
      ⟨0, text⟩ := by
  have hstart : Realizes .spaced .start (pure ()) View.nothing ⟨0, text⟩ :=
    .of_some (Rule.found_pure ()) (.start rfl) rfl
  refine .congr (p := pure () >>= fun _ => whole p) ?_ (by simp)
  refine .seq hstart fun _ ms c' _ hms => .seq (.star he (fun d _ => hp d)
    (Cursor.skipped_skipped c')) fun as ms' d _ hms' => .map (realizes_atEnd _) ?_
  rintro _ _ ⟨mark, rfl, hmark⟩
  obtain rfl : ms = [] := hms
  exact ⟨ms', mark, rfl, hmark, hms'⟩

theorem realizes_body {text : List Char} :
    Realizes .spaced (.rule .body) body (View.one block?) ⟨0, text⟩ := by
  refine .node (realizes_whole takes_statement fun c => realizes_statement fun c' _ =>
    realizes_block c') rfl ?_
  rintro _ ss stop t ⟨ms, mark, rfl, hmark, hms⟩
  exact ⟨_, rfl, by rw [block?, hms.statements? hmark]; rfl⟩

theorem takes_item : grammar.Takes (.alt (.rule .workersDecl) (.rule .definition)) :=
  .alt (.rule (.left (.rule (.left (.text nofun))))) (.rule (.left (.rule (.left (.text nofun)))))

theorem View.row.items {ms : List Phrase} {items : List Item} (h : View.row itemView ms items) :
    (ms.filter fun m => ! isMark m.rule).mapM item? = some items := by
  induction h with
  | nil => rfl
  | cons h _ ih =>
    obtain ⟨m, rfl, hm, hi⟩ := h
    simp [hm, hi, ih]

theorem realizes_program {text : List Char} :
    Realizes .spaced (.rule .program) program (View.one items?) ⟨0, text⟩ := by
  refine .told (realizes_whole takes_item fun c => .alt (realizes_workers c)
    (realizes_definition c)) rfl ?_
  rintro _ items a b t ⟨ms, mark, rfl, hmark, hms⟩
  refine ⟨_, rfl, ?_⟩
  have hend : [mark].filter (fun m => ! isMark m.rule) = [] := by simp [hmark]
  rw [items?, List.filter_append, hend, List.append_nil]
  exact hms.items

end Syntax

end Workflow.Surface
