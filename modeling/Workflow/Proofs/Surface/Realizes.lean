import Workflow.Proofs.Surface.Phrases
import Workflow.Proofs.Surface.Words

/-!
Rules against the grammar. A rule realizes an expression at a cursor when it matches there what the
expression matches, and its value is that which the matches stand for.
-/

namespace Workflow.Surface

namespace Syntax

open PegGrammar (Parses)

/-- A way to tell for which value some matches stand. -/
abbrev View (α : Type) := List Phrase → α → Prop

def Realizes {α : Type} (m : PegMode) (e : Expression) (p : Rule α) (V : View α) (c : Cursor) :
    Prop :=
  match (p c).found with
  | none => Parses grammar m e c none
  | some (a, c') => ∃ ms, Parses grammar m e c (some (ms, c')) ∧ V ms a

/-! ### Views -/

namespace View

variable {α : Type}

/-- No match and any value. -/
def nothing : View α := fun ms _ => ms = []

/-- One match, which stands for the value. -/
def one (view : Phrase → Option α) : View α := fun ms a => ∃ m, ms = [m] ∧ view m = some a

/-- One match of a rule, whose text names the value. -/
def word (r : RuleName) (name : List Char → List Char) : View (List Char) := fun ms t =>
  ∃ a b text inner, ms = [.mk r a b text inner] ∧ name text = t

/-- Nothing, or a value. -/
def maybe (V : View α) : View (Option α)
  | ms, none => ms = []
  | ms, some a => V ms a

/-- Values in a row. -/
inductive row (V : View α) : View (List α)
  | nil : row V [] []
  | cons {ms ms' : List Phrase} {a : α} {as : List α} (h : V ms a) (hs : row V ms' as) :
    row V (ms ++ ms') (a :: as)

theorem row.mapM {view : Phrase → Option α} {ms : List Phrase} {as : List α}
    (h : row (one view) ms as) : ms.mapM view = some as := by
  induction h with
  | nil => rfl
  | cons h _ ih =>
    obtain ⟨m, rfl, hm⟩ := h
    simp [List.mapM_cons, hm, ih]

end View

/-! ### Blanks -/

theorem parses_blanks (c : Cursor) :
    ∃ bs, Parses grammar .spaced .blanks c (some (bs, c.skipped)) := by
  obtain ⟨t, ht, hs⟩ := spells_again_blank c.rest
  obtain ⟨bs, hbs⟩ := hs.star nofun c.offset
  rw [← ht] at hbs
  refine ⟨bs, .blanks ?_⟩
  rw [Cursor.skipped, Cursor.moveTo_eq ht]
  exact hbs

theorem parses_rule_none {r : RuleName} {m : PegMode} {c : Cursor}
    (h : Parses grammar (r.kind.mode m) r.expression c none) : Parses grammar m (.rule r) c none :=
  .rule h

theorem parses_told {r : RuleName} {m : PegMode} {c c' : Cursor} {ms : List Phrase}
    (h : Parses grammar (r.kind.mode m) r.expression c (some (ms, c')))
    (ht : r.kind.isTold m = true) :
    Parses grammar m (.rule r) c (some ([.mk r c.offset c'.offset (c.upTo c') ms], c')) := by
  have h' := Parses.rule (G := grammar) (r := r) h
  rwa [PegGrammar.close, Option.map_some, show grammar.kind r = r.kind from rfl, if_pos ht] at h'

namespace Realizes

variable {α β : Type} {m : PegMode} {e f : Expression} {p q : Rule α} {V W : View α} {c : Cursor}

theorem of_none (h : (p c).found = none) (hp : Parses grammar m e c none) :
    Realizes m e p V c := by
  rw [Realizes, h]
  exact hp

theorem of_some {a : α} {c' : Cursor} {ms : List Phrase} (h : (p c).found = some (a, c'))
    (hp : Parses grammar m e c (some (ms, c'))) (hV : V ms a) : Realizes m e p V c := by
  rw [Realizes, h]
  exact ⟨ms, hp, hV⟩

theorem cases (h : Realizes m e p V c) :
    ((p c).found = none ∧ Parses grammar m e c none) ∨
      ∃ a c' ms, (p c).found = some (a, c') ∧ Parses grammar m e c (some (ms, c')) ∧ V ms a := by
  rw [Realizes] at h
  match hp : (p c).found with
  | none =>
    rw [hp] at h
    exact .inl ⟨rfl, h⟩
  | some (a, c') =>
    rw [hp] at h
    obtain ⟨ms, hms, hV⟩ := h
    exact .inr ⟨a, c', ms, rfl, hms, hV⟩

theorem congr (h : Realizes m e p V c) (hq : (q c).found = (p c).found) : Realizes m e q V c := by
  rw [Realizes, hq]
  exact h

theorem map {g : α → β} {W : View β} (h : Realizes m e p V c) (hW : ∀ ms a, V ms a → W ms (g a)) :
    Realizes m e (p >>= fun a => pure (g a)) W c := by
  rcases h.cases with ⟨hf, hp⟩ | ⟨a, c', ms, hf, hp, hV⟩
  · exact of_none (by simp [hf]) hp
  · exact of_some (by simp [hf]) hp (hW ms a hV)

theorem alt (hp : Realizes m e p V c) (hq : Realizes m f q V c) :
    Realizes m (.alt e f) (Rule.orElse p q) V c := by
  rcases hp.cases with ⟨hf, hp⟩ | ⟨a, c', ms, hf, hp, hV⟩
  · rcases hq.cases with ⟨hf', hq⟩ | ⟨a, c', ms, hf', hq, hV⟩
    · exact of_none (by simp [hf, hf']) (.alt_right hp hq)
    · exact of_some (by simp [hf, hf']) (.alt_right hp hq) hV
  · exact of_some (by simp [hf]) (.alt_left hp) hV

theorem opt (h : Realizes m e p V c) : Realizes m (.opt e) (Rule.optional p) V.maybe c := by
  rcases h.cases with ⟨hf, hp⟩ | ⟨a, c', ms, hf, hp, hV⟩
  · exact of_some (a := none) (by simp [hf]) (.opt_none hp) rfl
  · exact of_some (a := some a) (by simp [hf]) (.opt hp) hV

/-- Two parts with blanks between; the second may depend on what the first gives. -/
theorem seq {k : α → Rule β} {W : View β} (hp : Realizes .spaced e p V c)
    (hk : ∀ a ms c', Parses grammar .spaced e c (some (ms, c')) → V ms a →
      Realizes .spaced f (k a) (fun ms' b => W (ms ++ ms') b) c'.skipped) :
    Realizes .spaced (.seq e f) (p >>= fun a => Rule.skip >>= fun _ => k a) W c := by
  rcases hp.cases with ⟨hf, hp⟩ | ⟨a, c', ms, hf, hp, hV⟩
  · exact of_none (by simp [hf]) (.seq_none hp)
  · obtain ⟨bs, hbs⟩ := parses_blanks c'
    rcases (hk a ms c' hp hV).cases with ⟨hf', hq⟩ | ⟨b, c'', ms', hf', hq, hW⟩
    · exact of_none (by simp [hf, hf']) (.seq hp hbs hq)
    · exact of_some (by simp [hf, hf']) (.seq hp hbs hq) hW

/-- A rule that is told, with the extent of what it takes. -/
theorem node {r : RuleName} {g : α → Extent → β} {W : View β}
    (h : Realizes .spaced r.expression p V c) (hr : r.kind = .normal)
    (hW : ∀ ms a stop text, V ms a → W [.mk r c.offset stop text ms] (g a ⟨c.offset, stop⟩)) :
    Realizes .spaced (.rule r) (located p g) W c := by
  rcases h.cases with ⟨hf, hp⟩ | ⟨a, c', ms, hf, hp, hV⟩
  · exact of_none (by simp [hf]) (parses_rule_none (by rwa [hr]))
  · exact of_some (by simp [hf]) (parses_told (by rwa [hr]) (by rw [hr]; rfl))
      (hW ms a c'.offset (c.upTo c') hV)

theorem told {r : RuleName} {W : View α} (h : Realizes .spaced r.expression p V c)
    (hr : r.kind = .normal) (hW : ∀ ms a start stop text, V ms a → W [.mk r start stop text ms] a) :
    Realizes .spaced (.rule r) p W c := by
  rcases h.cases with ⟨hf, hp⟩ | ⟨a, c', ms, hf, hp, hV⟩
  · exact of_none hf (parses_rule_none (by rwa [hr]))
  · exact of_some hf (parses_told (by rwa [hr]) (by rw [hr]; rfl)) (hW ms a _ _ _ hV)

/-- A rule that is not told. -/
theorem silent {r : RuleName} (h : Realizes m r.expression p V c) (hr : r.kind = .silent) :
    Realizes m (.rule r) p V c := by
  rcases h.cases with ⟨hf, hp⟩ | ⟨a, c', ms, hf, hp, hV⟩
  · exact of_none hf (parses_rule_none (by rwa [hr]))
  · refine of_some hf ?_ hV
    have h' := Parses.rule (G := grammar) (r := r) (m := m) (o := some (ms, c'))
      (by rwa [show grammar.kind r = .silent from hr])
    rwa [PegGrammar.close, Option.map_some, show grammar.kind r = .silent from hr] at h'

/-- As many as there are, when each takes a character at least. -/
theorem again (he : grammar.Takes e) (c : Cursor) (hp : ∀ c', c'.rest.length ≤ c.rest.length →
    Realizes .spaced e p V c') : Realizes .spaced (.again e) (Rule.star p) V.row c := by
  obtain ⟨bs, hbs⟩ := parses_blanks c
  have hle := c.length_skipped_le
  rcases (hp c.skipped hle).cases with ⟨hf, hp'⟩ | ⟨a, c', ms, hf, hp', hV⟩
  · exact of_some (Rule.found_star_nil hf) (.again_none hbs hp') .nil
  · have hlt : c'.rest.length < c.rest.length := Nat.lt_of_lt_of_le (hp'.length_lt he) hle
    have ih : Realizes .spaced (.again e) (Rule.star p) V.row c' :=
      again he c' fun d hd => hp d (Nat.le_trans hd (Nat.le_of_lt hlt))
    rcases ih.cases with ⟨hf', hp''⟩ | ⟨as, c'', ms', hf', hp'', hV'⟩
    · exact of_none (by simp [Rule.found_star_cons hf hlt, hf']) (.again hbs hp' hp'')
    · exact of_some (by simp [Rule.found_star_cons hf hlt, hf']) (.again hbs hp' hp'')
        (.cons hV hV')
termination_by c.rest.length

/-- The same where no blanks stand. -/
theorem star (he : grammar.Takes e) (hp : ∀ c', c'.rest.length ≤ c.rest.length →
    Realizes .spaced e p V c') (hc : c.skipped = c) :
    Realizes .spaced (.star e) (Rule.star p) V.row c := by
  obtain ⟨bs, hbs⟩ := parses_blanks c
  rw [hc] at hbs
  rcases (again he c hp).cases with ⟨hf, hp'⟩ | ⟨as, c', ms, hf, hp', hV⟩
  · exact of_none hf (hp'.star_of_again hbs)
  · exact of_some hf (hp'.star_of_again hbs) hV

theorem char {x : Char} : Realizes m (.text [x]) (Rule.char x) View.nothing c := by
  by_cases h : ∃ rest, c.rest = x :: rest
  · obtain ⟨rest, hr⟩ := h
    exact of_some (Rule.found_char hr) (.text (w := [x]) hr) rfl
  · rw [not_exists] at h
    exact of_none (Rule.found_char_none h) (.text_none h)

/-- One item or more with commas between. -/
theorem commaList {item : Expression} (hi : ∀ c', c'.rest.length ≤ c.rest.length →
    Realizes .spaced item p V c') :
    Realizes .spaced (commaList item) (Rule.commaSeparated p) V.row c := by
  refine seq (hi c (Nat.le_refl _)) fun a ms c' hp hV => ?_
  have hle : c'.skipped.rest.length ≤ c.rest.length :=
    Nat.le_trans c'.length_skipped_le (hp.length_le _ rfl)
  refine map (V := V.row) (star (.left (.text nofun)) (fun d hd => ?_) (Cursor.skipped_skipped c'))
    fun ms' as hV' => .cons hV hV'
  refine seq (e := .text [',']) char fun _ ms'' d' hp' hV'' => ?_
  obtain rfl : ms'' = [] := hV''
  exact hi _ (Nat.le_trans d'.length_skipped_le (Nat.le_trans (hp'.length_le _ rfl)
    (Nat.le_trans hd hle)))

end Realizes

/-! ### Words -/

/-- A rule takes a word, which is told with a text that names it. -/
def Tells (r : RuleName) (p : Rule (List Char)) (name : List Char → List Char) (c : Cursor) :
    Prop :=
  ((p c).found = none ∧ Parses grammar .spaced (.rule r) c none) ∨
    ∃ c' text inner, (p c).found = some (name text, c') ∧
      Parses grammar .spaced (.rule r) c (some ([.mk r c.offset c'.offset text inner], c'))

theorem Cursor.upTo_moveTo {c : Cursor} {t rest : List Char} (h : c.rest = t ++ rest) :
    c.upTo (c.moveTo rest) = t := by
  simp [Cursor.upTo, h]

theorem tells_lexeme {l : Lexeme} {r : RuleName} {m : PegMode} (h : Lexes l m r.expression)
    (hm : r.kind.mode .spaced = m) (ht : r.kind.isTold .spaced = true) (c : Cursor) :
    Tells r (Rule.lexeme l) id c := by
  subst hm
  match hl : l c.rest with
  | none => exact .inl ⟨by simp [hl], .rule (h.refuses hl c.offset)⟩
  | some (t, rest) =>
    obtain ⟨hrest, hs⟩ := h.takes hl
    obtain ⟨ms, hms⟩ := hs c.offset
    rw [← hrest, ← Cursor.moveTo_eq hrest] at hms
    have htold := parses_told hms ht
    rw [Cursor.upTo_moveTo hrest] at htold
    exact .inr ⟨c.moveTo rest, t, ms, by simp [hl], htold⟩

/-- No character of an identifier is a colon. -/
theorem identifier_ne_colon {cs t rest : List Char} (h : identifier cs = some (t, rest)) :
    ∀ c ∈ t, decide (c = ':') = false := by
  match cs with
  | [] => cases h
  | c :: cs =>
    rw [identifier_cons, Option.ite_none_right_eq_some] at h
    obtain ⟨-, h⟩ := h
    cases h
    intro x hx
    have hchar := List.all_eq_true.mp List.all_takeWhile x hx
    refine decide_eq_false ?_
    rintro rfl
    cases hchar

theorem dropWhile_colon {t : List Char} (h : ∀ c ∈ t, decide (c = ':') = false) :
    t.dropWhile (· = ':') = t := by
  cases t with
  | nil => rfl
  | cons c t => exact List.dropWhile_cons_of_neg (by simpa using h c List.mem_cons_self)

theorem symbolName_cons {t : List Char} (h : ∀ c ∈ t, decide (c = ':') = false) :
    symbolName (':' :: t) = t := by
  rw [symbolName, List.dropWhile_cons_of_pos rfl, dropWhile_colon h]

theorem keyName_append {t : List Char} (h : ∀ c ∈ t, decide (c = ':') = false) :
    keyName (t ++ [':']) = t := by
  rw [keyName, List.reverse_append, List.reverse_singleton, List.singleton_append,
    List.dropWhile_cons_of_pos rfl, dropWhile_colon (by simpa using h), List.reverse_reverse]

theorem tells_key (c : Cursor) : Tells .argKey (Rule.lexeme key) keyName c := by
  match hl : key c.rest with
  | none =>
    exact .inl ⟨by simp [hl], parses_rule_none (m := .spaced) (key_refuses hl c.offset)⟩
  | some (t, rest) =>
    obtain ⟨hi, hs⟩ := key_takes hl
    obtain ⟨ms, hms⟩ := hs c.offset
    have hrest : c.rest = (t ++ [':']) ++ rest := by
      simpa using (lexes_identifier.takes hi).1
    rw [← hrest, ← Cursor.moveTo_eq hrest] at hms
    have htold := parses_told (r := .argKey) (m := .spaced) hms rfl
    rw [Cursor.upTo_moveTo hrest] at htold
    refine .inr ⟨c.moveTo rest, t ++ [':'], ms, ?_, htold⟩
    simp [hl, keyName_append (identifier_ne_colon hi)]

theorem tells_symbol (c : Cursor) : Tells .symbol symbol symbolName c := by
  by_cases hc : ∃ after, c.rest = ':' :: after
  · obtain ⟨after, hafter⟩ := hc
    match hl : identifier after with
    | none =>
      have hn : Refuses .compact RuleName.symbol.expression (':' :: after) :=
        .seq_right (t := [':']) nofun .text (lexes_rule_identifier.refuses hl)
      rw [← hafter] at hn
      exact .inl ⟨by simp [symbol, Rule.found_char hafter, hl],
        parses_rule_none (m := .spaced) (hn c.offset)⟩
    | some (t, rest) =>
      obtain ⟨rfl, hs⟩ := lexes_rule_identifier.takes (m := .compact) hl
      have hs' : Spells .compact RuleName.symbol.expression (':' :: t) rest :=
        .seq (t := [':']) nofun .text hs
      obtain ⟨ms, hms⟩ := hs' c.offset
      have hrest : c.rest = (':' :: t) ++ rest := hafter
      rw [← hrest, ← Cursor.moveTo_eq hrest] at hms
      have htold := parses_told (r := .symbol) (m := .spaced) hms rfl
      rw [Cursor.upTo_moveTo hrest] at htold
      refine .inr ⟨c.moveTo rest, ':' :: t, ms, ?_, htold⟩
      rw [symbolName_cons (identifier_ne_colon hl), Cursor.moveTo_eq hrest]
      simp [symbol, Rule.found_char hafter, hl, Cursor.moveTo_eq (c := ⟨_, t ++ rest⟩) rfl,
        Nat.add_assoc]
  · rw [not_exists] at hc
    have hn : Refuses .compact RuleName.symbol.expression c.rest :=
      .seq_left (.text (t := [':']) hc)
    refine .inl ⟨?_, parses_rule_none (m := .spaced) (hn c.offset)⟩
    simp [symbol, Rule.found_char_none hc]

section

variable {β : Type} {r : RuleName} {p : Rule (List Char)} {name : List Char → List Char}
  {c : Cursor}

theorem Tells.realizes (h : Tells r p name c) :
    Realizes .spaced (.rule r) p (View.word r name) c := by
  rcases h with ⟨hf, hp⟩ | ⟨c', text, inner, hf, hp⟩
  · exact .of_none hf hp
  · exact .of_some hf hp ⟨_, _, text, inner, rfl, rfl⟩

theorem Tells.located {g : List Char → Extent → β} {W : View β} (h : Tells r p name c)
    (hW : ∀ text stop inner, W [.mk r c.offset stop text inner] (g (name text) ⟨c.offset, stop⟩)) :
    Realizes .spaced (.rule r) (located p g) W c := by
  rcases h with ⟨hf, hp⟩ | ⟨c', text, inner, hf, hp⟩
  · exact .of_none (by simp [hf]) hp
  · exact .of_some (by simp [hf]) hp (hW text c'.offset inner)

end

end Syntax

end Workflow.Surface
