import Workflow.Surface.Rule

/-!
Parsing expressions: choices are ordered, repetitions and optional parts take all they can, and
nothing that was taken is given back. Between the parts of a sequence, and between the rounds of a
repetition, blanks are passed over, except inside words. A match gives a tree of what was matched by
which rule.
-/

namespace Workflow.Surface

/-- Parsing expressions over rules with names in `ν`. -/
inductive Peg (ν : Type) where
  | text (w : List Char)
  | one (p : Char → Bool)
  /-- The start of the text. -/
  | start
  /-- The end of the text. -/
  | stop
  | rule (r : ν)
  | seq (e f : Peg ν)
  | alt (e f : Peg ν)
  | opt (e : Peg ν)
  | star (e : Peg ν)
  /-- Not followed by a match; takes nothing. -/
  | no (e : Peg ν)
  /-- What is passed over between two parts. -/
  | blanks
  /-- The further rounds of a repetition. -/
  | again (e : Peg ν)

namespace Peg

variable {ν : Type}

def plus (e : Peg ν) : Peg ν := seq e (star e)

/-- The first of several texts that stands here. -/
def texts : List String → Peg ν
  | [] => no (text [])
  | [w] => text w.toList
  | w :: ws => alt (text w.toList) (texts ws)

end Peg

/-- How a rule is matched: a `word` passes over no blanks and is not taken apart, a `compact` rule
passes over no blanks, and what a `silent` rule matches is not told from its surroundings. -/
inductive RuleKind where
  | normal
  | silent
  | word
  | compact

structure PegGrammar (ν : Type) where
  kind : ν → RuleKind
  body : ν → Peg ν
  blank : Peg ν

/-- What a rule matched, and what other rules matched inside of it. -/
inductive Match (ν : Type) where
  | mk (rule : ν) (start stop : Nat) (text : List Char) (inner : List (Match ν))

/-- How the surroundings are matched: with blanks between parts, without, or within a word. -/
inductive PegMode where
  | spaced
  | compact
  | word
deriving DecidableEq

def RuleKind.mode : RuleKind → PegMode → PegMode
  | normal, m | silent, m => m
  | word, _ => .word
  | compact, _ => .compact

/-- Whether a match of the rule is told. -/
def RuleKind.isTold : RuleKind → PegMode → Bool
  | normal, m | word, m => m ≠ .word
  | silent, _ => false
  | compact, _ => true

/-- The text from one cursor up to a later one. -/
def Cursor.upTo (c c' : Cursor) : List Char := c.rest.take (c.rest.length - c'.rest.length)

namespace PegGrammar

variable {ν : Type}

/-- The outcome of a match: none, or what was matched and where it ended. -/
abbrev Outcome (ν : Type) := Option (List (Match ν) × Cursor)

def Outcome.prepend (ms : List (Match ν)) (o : Outcome ν) : Outcome ν :=
  o.map fun x => (ms ++ x.1, x.2)

/-- What a rule makes of the outcome of its expression. -/
def close (G : PegGrammar ν) (m : PegMode) (r : ν) (c : Cursor) (o : Outcome ν) : Outcome ν :=
  o.map fun x =>
    (if (G.kind r).isTold m then [.mk r c.offset x.2.offset (c.upTo x.2) x.1] else x.1, x.2)

/-- An expression matches at a cursor with an outcome. -/
inductive Parses (G : PegGrammar ν) : PegMode → Peg ν → Cursor → Outcome ν → Prop where
  | text {m : PegMode} {w : List Char} {c : Cursor} {rest : List Char} (h : c.rest = w ++ rest) :
    Parses G m (.text w) c (some ([], ⟨c.offset + Text.utf8Length w, rest⟩))
  | text_none {m : PegMode} {w : List Char} {c : Cursor} (h : ∀ rest, c.rest ≠ w ++ rest) :
    Parses G m (.text w) c none
  | one {m : PegMode} {p : Char → Bool} {c : Cursor} {x : Char} {rest : List Char}
    (h : c.rest = x :: rest) (hx : p x = true) :
    Parses G m (.one p) c (some ([], ⟨c.offset + x.utf8Size, rest⟩))
  | one_none {m : PegMode} {p : Char → Bool} {c : Cursor}
    (h : ∀ x rest, c.rest = x :: rest → p x = false) : Parses G m (.one p) c none
  | start {m : PegMode} {c : Cursor} (h : c.offset = 0) : Parses G m .start c (some ([], c))
  | start_none {m : PegMode} {c : Cursor} (h : c.offset ≠ 0) : Parses G m .start c none
  | stop {m : PegMode} {c : Cursor} (h : c.rest = []) : Parses G m .stop c (some ([], c))
  | stop_none {m : PegMode} {c : Cursor} (h : c.rest ≠ []) : Parses G m .stop c none
  | rule {m : PegMode} {r : ν} {c : Cursor} {o : Outcome ν}
    (h : Parses G ((G.kind r).mode m) (G.body r) c o) :
    Parses G m (.rule r) c (G.close m r c o)
  | seq {m : PegMode} {e f : Peg ν} {c c' c'' : Cursor} {ms bs : List (Match ν)} {o : Outcome ν}
    (he : Parses G m e c (some (ms, c'))) (hb : Parses G m .blanks c' (some (bs, c'')))
    (hf : Parses G m f c'' o) : Parses G m (.seq e f) c (o.prepend ms)
  | seq_none {m : PegMode} {e f : Peg ν} {c : Cursor} (he : Parses G m e c none) :
    Parses G m (.seq e f) c none
  | alt_left {m : PegMode} {e f : Peg ν} {c : Cursor} {x : List (Match ν) × Cursor}
    (he : Parses G m e c (some x)) : Parses G m (.alt e f) c (some x)
  | alt_right {m : PegMode} {e f : Peg ν} {c : Cursor} {o : Outcome ν} (he : Parses G m e c none)
    (hf : Parses G m f c o) : Parses G m (.alt e f) c o
  | opt {m : PegMode} {e : Peg ν} {c : Cursor} {x : List (Match ν) × Cursor}
    (he : Parses G m e c (some x)) : Parses G m (.opt e) c (some x)
  | opt_none {m : PegMode} {e : Peg ν} {c : Cursor} (he : Parses G m e c none) :
    Parses G m (.opt e) c (some ([], c))
  | star {m : PegMode} {e : Peg ν} {c c' : Cursor} {ms : List (Match ν)} {o : Outcome ν}
    (he : Parses G m e c (some (ms, c'))) (ha : Parses G m (.again e) c' o) :
    Parses G m (.star e) c (o.prepend ms)
  | star_none {m : PegMode} {e : Peg ν} {c : Cursor} (he : Parses G m e c none) :
    Parses G m (.star e) c (some ([], c))
  | no {m : PegMode} {e : Peg ν} {c : Cursor} {x : List (Match ν) × Cursor}
    (he : Parses G m e c (some x)) : Parses G m (.no e) c none
  | no_none {m : PegMode} {e : Peg ν} {c : Cursor} (he : Parses G m e c none) :
    Parses G m (.no e) c (some ([], c))
  | blanks {c : Cursor} {o : Outcome ν} (h : Parses G .word G.blank c o) :
    Parses G .spaced .blanks c o
  | blanks_none {m : PegMode} {c : Cursor} (hm : m ≠ .spaced) :
    Parses G m .blanks c (some ([], c))
  | again {m : PegMode} {e : Peg ν} {c c' c'' : Cursor} {ms bs : List (Match ν)} {o : Outcome ν}
    (hb : Parses G m .blanks c (some (bs, c'))) (he : Parses G m e c' (some (ms, c'')))
    (ha : Parses G m (.again e) c'' o) : Parses G m (.again e) c (o.prepend ms)
  | again_none {m : PegMode} {e : Peg ν} {c c' : Cursor} {bs : List (Match ν)}
    (hb : Parses G m .blanks c (some (bs, c'))) (he : Parses G m e c' none) :
    Parses G m (.again e) c (some ([], c))

variable {G : PegGrammar ν} {m : PegMode} {e f : Peg ν} {c : Cursor} {o o' : Outcome ν}

/-- An expression has one outcome at most. -/
theorem Parses.unique (h : Parses G m e c o) (h' : Parses G m e c o') : o = o' := by
  -- The other derivation either ends by the same rule, or one of its premises has an outcome that
  -- the induction rules out.
  induction h generalizing o' with
  | text h =>
    cases h' with
    | text h' =>
      obtain rfl := List.append_cancel_left (h.symm.trans h')
      rfl
    | text_none h' => exact absurd h (h' _)
  | text_none h =>
    cases h' with
    | text h' => exact absurd h' (h _)
    | text_none => rfl
  | one h hx =>
    cases h' with
    | one h' =>
      obtain ⟨rfl, rfl⟩ := List.cons.inj (h.symm.trans h')
      rfl
    | one_none h' =>
      rw [h' _ _ h] at hx
      cases hx
  | one_none h =>
    cases h' with
    | one h' hx =>
      rw [h _ _ h'] at hx
      cases hx
    | one_none => rfl
  | start h =>
    cases h' with
    | start => rfl
    | start_none h' => exact absurd h h'
  | start_none h =>
    cases h' with
    | start h' => exact absurd h' h
    | start_none => rfl
  | stop h =>
    cases h' with
    | stop => rfl
    | stop_none h' => exact absurd h h'
  | stop_none h =>
    cases h' with
    | stop h' => exact absurd h' h
    | stop_none => rfl
  | rule _ ih =>
    cases h' with
    | rule h' => rw [ih h']
  | seq _ _ _ ihe ihb ihf =>
    cases h' with
    | seq he hb hf =>
      obtain ⟨rfl, rfl⟩ := Prod.mk.inj (Option.some.inj (ihe he))
      obtain ⟨-, rfl⟩ := Prod.mk.inj (Option.some.inj (ihb hb))
      rw [ihf hf]
    | seq_none he => cases ihe he
  | seq_none _ ihe =>
    cases h' with
    | seq he => cases ihe he
    | seq_none => rfl
  | alt_left _ ihe =>
    cases h' with
    | alt_left he => exact ihe he
    | alt_right he => cases ihe he
  | alt_right _ _ ihe ihf =>
    cases h' with
    | alt_left he => cases ihe he
    | alt_right _ hf => exact ihf hf
  | opt _ ihe =>
    cases h' with
    | opt he => exact ihe he
    | opt_none he => cases ihe he
  | opt_none _ ihe =>
    cases h' with
    | opt he => cases ihe he
    | opt_none => rfl
  | star _ _ ihe iha =>
    cases h' with
    | star he ha =>
      obtain ⟨rfl, rfl⟩ := Prod.mk.inj (Option.some.inj (ihe he))
      rw [iha ha]
    | star_none he => cases ihe he
  | star_none _ ihe =>
    cases h' with
    | star he => cases ihe he
    | star_none => rfl
  | no _ ihe =>
    cases h' with
    | no => rfl
    | no_none he => cases ihe he
  | no_none _ ihe =>
    cases h' with
    | no he => cases ihe he
    | no_none => rfl
  | blanks _ ih =>
    cases h' with
    | blanks h' => exact ih h'
    | blanks_none hm => exact absurd rfl hm
  | blanks_none hm =>
    cases h' with
    | blanks => exact absurd rfl hm
    | blanks_none => rfl
  | again _ _ _ ihb ihe iha =>
    cases h' with
    | again hb he ha =>
      obtain ⟨-, rfl⟩ := Prod.mk.inj (Option.some.inj (ihb hb))
      obtain ⟨rfl, rfl⟩ := Prod.mk.inj (Option.some.inj (ihe he))
      rw [iha ha]
    | again_none hb he =>
      obtain ⟨-, rfl⟩ := Prod.mk.inj (Option.some.inj (ihb hb))
      cases ihe he
  | again_none _ _ ihb ihe =>
    cases h' with
    | again hb he =>
      obtain ⟨-, rfl⟩ := Prod.mk.inj (Option.some.inj (ihb hb))
      cases ihe he
    | again_none => rfl

/-- Where no blanks stand, a repetition may as well go on. -/
theorem Parses.star_of_again {bs : List (Match ν)} (h : Parses G m (.again e) c o)
    (hb : Parses G m .blanks c (some (bs, c))) : Parses G m (.star e) c o := by
  cases h with
  | again hb' he ha =>
    obtain ⟨-, rfl⟩ := Prod.mk.inj (Option.some.inj (hb'.unique hb))
    exact .star he ha
  | again_none hb' he =>
    obtain ⟨-, rfl⟩ := Prod.mk.inj (Option.some.inj (hb'.unique hb))
    exact .star_none he

/-- No match gives back what was taken before it. -/
theorem Parses.length_le (h : Parses G m e c o) :
    ∀ x, o = some x → x.2.rest.length ≤ c.rest.length := by
  induction h with
  | text h =>
    rintro x ⟨⟩
    simp [h]
  | one h hx =>
    rintro x ⟨⟩
    simp [h]
  | text_none | one_none | start_none | stop_none | seq_none | no => nofun
  | start | stop | opt_none | star_none | no_none | blanks_none | again_none =>
    rintro x ⟨⟩
    exact Nat.le_refl _
  | rule _ ih =>
    intro x hx
    obtain ⟨y, hy, rfl⟩ := Option.map_eq_some_iff.mp hx
    exact ih y hy
  | seq _ _ _ ihe ihb ihf =>
    intro x hx
    obtain ⟨y, hy, rfl⟩ := Option.map_eq_some_iff.mp hx
    exact Nat.le_trans (ihf y hy) (Nat.le_trans (ihb _ rfl) (ihe _ rfl))
  | alt_left _ ih | alt_right _ _ _ ih | opt _ ih | blanks _ ih => exact ih
  | star _ _ ihe iha =>
    intro x hx
    obtain ⟨y, hy, rfl⟩ := Option.map_eq_some_iff.mp hx
    exact Nat.le_trans (iha y hy) (ihe _ rfl)
  | again _ _ _ ihb ihe iha =>
    intro x hx
    obtain ⟨y, hy, rfl⟩ := Option.map_eq_some_iff.mp hx
    exact Nat.le_trans (iha y hy) (Nat.le_trans (ihe _ rfl) (ihb _ rfl))

/-- Expressions that take a character at least. -/
inductive Takes (G : PegGrammar ν) : Peg ν → Prop where
  | text {w : List Char} (h : w ≠ []) : Takes G (.text w)
  | one {p : Char → Bool} : Takes G (.one p)
  | rule {r : ν} (h : Takes G (G.body r)) : Takes G (.rule r)
  | left {e f : Peg ν} (h : Takes G e) : Takes G (.seq e f)
  | right {e f : Peg ν} (h : Takes G f) : Takes G (.seq e f)
  | alt {e f : Peg ν} (he : Takes G e) (hf : Takes G f) : Takes G (.alt e f)

theorem Parses.length_lt {ms : List (Match ν)} {c' : Cursor}
    (hp : Parses G m e c (some (ms, c'))) (h : G.Takes e) : c'.rest.length < c.rest.length := by
  induction h generalizing m c ms c' with
  | text h =>
    cases hp with
    | text heq =>
      have := List.length_pos_iff.mpr h
      simp only [heq, List.length_append]
      omega
  | one =>
    cases hp with
    | one heq => simp [heq]
  | rule _ ih =>
    generalize ho : some (ms, c') = o at hp
    cases hp with
    | rule hp =>
      obtain ⟨⟨ms', c''⟩, rfl, h⟩ := Option.map_eq_some_iff.mp ho.symm
      cases h
      exact ih hp
  | left _ ih =>
    generalize ho : some (ms, c') = o at hp
    cases hp with
    | seq he hb hf =>
      obtain ⟨⟨ms', c''⟩, rfl, h⟩ := Option.map_eq_some_iff.mp ho.symm
      cases h
      exact Nat.lt_of_le_of_lt (Nat.le_trans (hf.length_le _ rfl) (hb.length_le _ rfl)) (ih he)
    | seq_none => cases ho
  | right _ ih =>
    generalize ho : some (ms, c') = o at hp
    cases hp with
    | seq he hb hf =>
      obtain ⟨⟨ms', c''⟩, rfl, h⟩ := Option.map_eq_some_iff.mp ho.symm
      cases h
      exact Nat.lt_of_lt_of_le (ih hf) (Nat.le_trans (hb.length_le _ rfl) (he.length_le _ rfl))
    | seq_none => cases ho
  | alt _ _ ihe ihf =>
    cases hp with
    | alt_left he => exact ihe he
    | alt_right _ hf => exact ihf hf

end PegGrammar

end Workflow.Surface
