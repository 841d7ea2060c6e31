import Workflow.Proofs.Surface.Alike
import Workflow.Proofs.Surface.Keeps

/-!
The grammar on a text with a further line behind it. A phrase that ends with a word of its own, such
as a block, does not look at what comes next. A call does: it goes on over an argument or a block
there. But no statement and no declaration begins like one, so a call ends where it did.
-/

namespace Workflow.Surface

open Syntax (keyword_eq_some_iff keyword_eq_none_iff identifier_cons)

/-! ### First words -/

/-- A keyword comes first. -/
def Begins (k : String) (w : List Char) : Prop := ∃ x, keyword k w = some x

section

variable {w : List Char} {j k : String} {x : List Char × List Char}

theorem Begins.takeWhile_eq (h : Begins k w) : w.takeWhile isIdentChar = k.toList := by
  obtain ⟨x, hx⟩ := h
  exact (keyword_eq_some_iff.mp hx).1.symm

theorem Begins.identifier_none (h : Begins k w) (hk : k ∈ keywords) : identifier w = none := by
  cases w with
  | nil => rfl
  | cons c w =>
    rw [identifier_cons, h.takeWhile_eq, Syntax.isKeyword_iff.mpr ⟨k, hk, rfl⟩, Bool.not_true,
      Bool.and_false]
    rfl

theorem Begins.keyword_none (h : Begins k w) (hne : j ≠ k) : keyword j w = none := by
  rw [keyword_eq_none_iff, h.takeWhile_eq]
  exact fun he => hne (String.toList_injective he)

theorem keyword_none_of_identifier (hk : k ∈ keywords) (h : identifier w = some x) :
    keyword k w = none := by
  by_contra hne
  have hnone := Begins.identifier_none (Option.ne_none_iff_exists'.mp hne) hk
  rw [hnone] at h
  cases h

/-- A word begins here, or the text ends. -/
def AtWord (w : List Char) : Prop := ∀ c ∈ w.head?, isIdentStart c = true

theorem AtWord.ne_cons (h : AtWord w) {c : Char} (hc : isIdentStart c = false) (rest : List Char) :
    w ≠ c :: rest := by
  rintro rfl
  rw [h c rfl] at hc
  cases hc

theorem atWord_identifier (h : identifier w = some x) : AtWord w := by
  cases w with
  | nil => cases h
  | cons c w =>
    rw [identifier_cons, Option.ite_none_right_eq_some, Bool.and_eq_true] at h
    rintro _ ⟨⟩
    exact h.1.1

theorem Begins.atWord (h : Begins k w) (hk : k ∈ keywords) : AtWord w := by
  have hw := h.takeWhile_eq
  obtain ⟨y, ys, hy, hstart⟩ := IsWord.start (.inr ⟨k, hk, rfl⟩)
  cases w with
  | nil =>
    rintro _ ⟨⟩
  | cons c w =>
    rw [hy, List.takeWhile_cons] at hw
    split at hw
    · cases hw
      rintro _ ⟨⟩
      exact hstart
    · cases hw

theorem isPlainStart_of_isIdentStart {c : Char} (h : isIdentStart c = true) : IsPlainStart c := by
  refine ⟨?_, ?_, ?_⟩
  · rintro rfl
    cases h
  · rintro rfl
    cases h
  · rw [isIdentStart, Bool.or_eq_true, decide_eq_true_eq] at h
    rcases h with h | rfl
    · delta Char.isAlpha Char.isUpper Char.isLower at h
      delta Char.isDigit
      simp only [Bool.or_eq_true, Bool.and_eq_true, decide_eq_true_eq] at h
      simp only [Bool.and_eq_false_iff, decide_eq_false_iff_not]
      grind
    · rfl

/-- Where an identifier begins, no literal does. -/
theorem literal_none_of_identifier {c : Cursor} (h : identifier c.rest = some x) :
    (literal c).found = none := by
  have hstart := atWord_identifier h
  cases hc : c.rest with
  | nil =>
    rw [hc] at h
    cases h
  | cons y cs =>
    rw [hc] at h hstart
    refine literalUpTo_none (isPlainStart_of_isIdentStart (hstart y rfl))
      (fun k hk => keyword_none_of_identifier hk h) ?_ hc
    rintro rfl
    cases hstart _ rfl

end

theorem AtWord.skipBlanks_eq {w : List Char} (h : AtWord w) : skipBlanks w = w := by
  cases w with
  | nil => rfl
  | cons c w =>
    have hblank : isBlank c ≠ true := by
      intro hb
      simp only [isBlank, Bool.or_eq_true, decide_eq_true_eq] at hb
      rcases hb with ((rfl | rfl) | rfl) | rfl <;> cases h _ rfl
    have hhash : c ≠ '#' := by
      rintro rfl
      cases h _ rfl
    rw [skipBlanks, if_neg hblank, if_neg hhash]

/-! ### Literals -/

section

variable {v : List Char} {S : List Char → Prop} {c : Cursor} {rest : List Char}

theorem found_symbol (hc : c.rest = ':' :: rest) :
    (symbol c).found = (identifier rest).map fun x =>
      (x.1, Cursor.moveTo ⟨c.offset + ':'.utf8Size, rest⟩ x.2) := by
  simp [symbol, Rule.found_char hc]

theorem found_symbol_none (hc : ∀ rest, c.rest ≠ ':' :: rest) : (symbol c).found = none := by
  simp [symbol, Rule.found_char_none hc]

theorem colon_of_found_symbol {x : List Char × Cursor} (h : (symbol c).found = some x) :
    ∃ rest, c.rest = ':' :: rest := by
  by_contra hc
  rw [not_exists] at hc
  rw [found_symbol_none hc] at h
  cases h

theorem keeps_symbol (hv : Seam v) : Keeps v 1 S Eq symbol symbol := by
  intro c t c' hf hc _ d hd
  obtain ⟨rest, hcolon⟩ := colon_of_found_symbol hf
  rw [found_symbol hcolon] at hf
  obtain ⟨⟨t, u⟩, hi, he⟩ := Option.map_eq_some_iff.mp hf
  cases he
  obtain ⟨hlt, hi'⟩ := carries_identifier hv.boundary _ _ _ hi
  have hrest := rest_eq_append hc (by rw [hcolon]; exact List.cons_ne_nil _ _) hd
  rw [hcolon, List.cons_append] at hrest
  refine ⟨?_, t, _, by rw [found_symbol hrest, hi']; rfl, rfl, rfl, ?_⟩
  · rw [hcolon]
    exact Nat.le_succ_of_le hlt
  · rw [hrest, Cursor.moveTo_rest, List.length_cons, List.length_append, List.length_append]
    omega

theorem keeps_plainLiteral (hv : Seam v) : Keeps v 1 S SameLiteral plainLiteral plainLiteral := by
  have htoken : ∀ t t' e e', t = t' → SameLiteral (.token t e) (.token t' e') := by
    rintro t _ e e' rfl
    exact ⟨.rfl, fun _ _ => rfl⟩
  refine .orElse (.located (.lexeme carries_string) htoken)
    (.orElse (.located (.lexeme (carries_number hv)) htoken)
      (.orElse (.map (.lexeme (carries_boolean hv.boundary)) ?_)
        (.map (.lexeme (carries_keyword hv.boundary (by decide))) ?_) ?_) ?_) ?_
  · rintro t _ rfl
    exact ⟨.rfl, fun _ _ => rfl⟩
  · rintro t _ rfl
    exact ⟨.rfl, fun _ _ => rfl⟩
  · intro c x _ hnone _ d hd
    have hboolean : boolean c.rest = none := by
      by_contra hne
      obtain ⟨y, hy⟩ := Option.ne_none_iff_exists'.mp hne
      simp [hy] at hnone
    simp [hd, steady_boolean hv.boundary c.rest, hboolean]
  · intro c x _ hnone _ d hd
    have hnumber : number c.rest = none := by simpa using hnone
    simp [hd, steady_number hv c.rest, hnumber]
  · intro c x hne _ hfound d hd
    obtain ⟨y, cs, hc⟩ := List.exists_cons_of_ne_nil hne
    rw [hc, List.cons_append] at hd
    refine found_string_none ?_ hd
    rintro rfl
    have hword : ∀ k ∈ keywords, keyword k c.rest = none := by
      rw [hc]
      exact fun k => keyword_cons_none rfl
    have hnumber : number c.rest = none := by
      rw [hc]
      exact number_none (by decide) rfl
    simp [hnumber, boolean, hword "true" (by decide), hword "false" (by decide),
      hword "nil" (by decide)] at hfound

theorem keeps_array {p q : Rule Literal} (hv : Seam v) (hp : Keeps v 1 Always SameLiteral p q)
    (hno : ∀ d : Cursor, ∀ rest, d.rest = ']' :: rest → (q d).found = none) :
    Keeps v 1 S SameLiteral (array p) (array q) := by
  have hitems := hp.optionalCommas (S := fun w => ∃ rest, w = ']' :: rest) hv
    (by rintro _ ⟨_, rfl⟩ _ ⟨⟩) fun d ⟨rest, hd⟩ => hno d rest hd
  refine .named (.andThen hv .char fun _ _ _ => .seq hv hitems (fun ls ls' hls =>
    .map .char fun _ _ _ => .array hls) ?_)
  intro _ c b c' hf hc _
  obtain ⟨_, hy⟩ := found_of_bind hf
  obtain ⟨rest, hrest⟩ := rest_of_found_char hy
  rw [skipBlanks_rest_append hc (by rw [hrest]; exact List.cons_ne_nil _ _), hrest]
  exact ⟨_, rfl⟩

theorem keeps_literalUpTo (hv : Seam v) {k l : Nat} (hkl : k ≤ l) :
    Keeps v 1 S SameLiteral (literalUpTo k) (literalUpTo l) := by
  induction k generalizing l S with
  | zero =>
    cases l with
    | zero => exact keeps_plainLiteral hv
    | succ l => exact (keeps_plainLiteral hv).orElse_left
  | succ k ih =>
    cases l with
    | zero => omega
    | succ l =>
      refine .orElse (keeps_plainLiteral hv)
        (keeps_array hv (ih (Nat.le_of_succ_le_succ hkl)) fun d rest hd =>
          literalUpTo_none (by decide) (fun _ => keyword_cons_none rfl) (by decide) hd) ?_
      intro c x _ _ hfound d hd
      rw [array, Rule.found_named] at hfound
      obtain ⟨_, hy⟩ := found_of_bind hfound
      obtain ⟨rest, hrest⟩ := rest_of_found_char hy
      rw [hrest, List.cons_append] at hd
      exact plainLiteral_none (by decide) (fun _ => keyword_cons_none rfl) hd

theorem keeps_literal (hv : Seam v) : Keeps v 1 S SameLiteral literal literal :=
  .depth fun _ _ => keeps_literalUpTo hv

/-! ### Arguments, bindings and parameters -/

theorem keyed_none (h : key c.rest = none) : (keyed c).found = none := by
  simp [keyed, h]

theorem keeps_keyed (hv : Seam v) : Keeps v 1 S SameArgument keyed keyed := by
  have hvalue : Keeps v 1 S SameArgValue
      (Rule.orElse (do pure (.symbol (← symbol))) (do pure (.literal (← literal))))
      (Rule.orElse (do pure (.symbol (← symbol))) (do pure (.literal (← literal)))) := by
    refine .orElse (.map (keeps_symbol hv) ?_)
      (.map (keeps_literal hv) fun _ _ => SameLiteral.argValue) ?_
    · rintro name _ rfl
      exact fun key e e' => ⟨.rfl, fun _ _ => rfl⟩
    · intro c x hne _ hfound d hd
      obtain ⟨y, cs, hc⟩ := List.exists_cons_of_ne_nil hne
      obtain ⟨_, hliteral⟩ := found_of_bind hfound
      have hy : y ≠ ':' := by
        rintro rfl
        have hnone : (literal c).found = none :=
          literalUpTo_none (by decide) (fun _ => keyword_cons_none rfl) (by decide) hc
        rw [hnone] at hliteral
        cases hliteral
      rw [hc, List.cons_append] at hd
      have hsymbol : (symbol d).found = none := found_symbol_none fun rest hrest => hy (by
        rw [hd] at hrest
        exact (List.cons.inj hrest).1)
      simp [hsymbol]
  refine .located (R := fun x y => x.1 = y.1 ∧ SameArgValue x.2 y.2)
    (.andThen hv (.lexeme (carries_key hv.boundary)) fun k k' hk =>
      .map hvalue fun _ _ h => ⟨hk, h⟩) ?_
  rintro ⟨k, x⟩ ⟨_, y⟩ e e' ⟨rfl, h⟩
  exact h k e e'

theorem keeps_argument (hv : Seam v) : Keeps v 1 S SameArgument argument argument := by
  refine .orElse (keeps_keyed hv) (.located (keeps_symbol hv) ?_) ?_
  · rintro name _ e e' rfl
    exact ⟨.rfl, fun _ _ => rfl⟩
  · intro c x _ _ hfound d hd
    rw [found_located, Option.map_eq_some_iff] at hfound
    obtain ⟨y, hsymbol, -⟩ := hfound
    obtain ⟨rest, hrest⟩ := colon_of_found_symbol hsymbol
    apply keyed_none
    rw [hd, hrest]
    rfl

theorem keeps_binding (hv : Seam v) : Keeps v 1 S SameBinding binding binding := by
  refine .located (R := Eq) (.andThen hv (.lexeme (carries_key hv.boundary)) fun k k' hk =>
    .map (keeps_symbol hv) fun _ _ h => by rw [hk, h]) ?_
  rintro ⟨k, x⟩ _ e e' rfl
  rfl

theorem keeps_parameter (hv : Seam v) :
    Keeps v 1 S (fun p q => p.name = q.name) parameter parameter :=
  .located (keeps_symbol hv) fun _ _ _ _ h => h

end

/-! ### What comes next -/

/-- No argument begins here, and no comma goes on with one. -/
structure EndsArgs (w : List Char) : Prop where
  word : AtWord w
  argument : ∀ c : Cursor, c.rest = w → (argument c).found = none

/-- Nothing begins here that a call would go on over. -/
structure EndsCall (w : List Char) : Prop extends EndsArgs w where
  block : keyword "do" w = none

section

variable {v w : List Char} {c : Cursor} {k : String} {x : List Char × List Char}

theorem endsArgs_of_key (hw : AtWord w) (h : key w = none) : EndsArgs w := by
  refine ⟨hw, fun c hc => ?_⟩
  subst hc
  have hsymbol : (symbol c).found = none := found_symbol_none (hw.ne_cons rfl)
  simp [argument, keyed_none h, hsymbol]

theorem Begins.key_none (h : Begins k w) (hk : k ∈ keywords) : key w = none := by
  rw [key, h.identifier_none hk]

theorem Begins.endsArgs (h : Begins k w) (hk : k ∈ keywords) : EndsArgs w :=
  endsArgs_of_key (h.atWord hk) (h.key_none hk)

theorem Begins.endsCall (h : Begins k w) (hk : k ∈ keywords) (hne : "do" ≠ k) : EndsCall w :=
  ⟨h.endsArgs hk, h.keyword_none hne⟩

theorem endsCall_nil : EndsCall [] :=
  ⟨endsArgs_of_key (by rintro _ ⟨⟩) rfl, by decide⟩

/-- A name ends a call before it, unless it is the key of an argument. It is none where, behind a
colon, a second colon or an identifier follows. -/
theorem endsCall_identifier {t r : List Char} (hi : identifier w = some (t, r))
    (h : ∀ u, r = ':' :: u → (∀ rest, u ≠ ':' :: rest) → ∃ x, identifier u = some x) :
    EndsCall w := by
  have hw := atWord_identifier hi
  refine ⟨⟨hw, fun c hc => ?_⟩, keyword_none_of_identifier (by decide) hi⟩
  subst hc
  have hsymbol : (symbol c).found = none := found_symbol_none (hw.ne_cons rfl)
  have hkeyed : (keyed c).found = none := by
    cases hkey : key c.rest with
    | none => exact keyed_none hkey
    | some y =>
      obtain ⟨hcolon, hsecond⟩ := key_eq_some_iff.mp hkey
      cases hi.symm.trans hcolon
      obtain ⟨x, hx⟩ := h _ rfl hsecond
      have hword := atWord_identifier hx
      -- The identifier behind the colon is neither a symbol nor a literal.
      have hd : (c.moveTo y.2).skipped.rest = y.2 := hword.skipBlanks_eq
      have hno : (symbol (c.moveTo y.2).skipped).found = none :=
        found_symbol_none (by rw [hd]; exact hword.ne_cons rfl)
      have hliteral : (literal (c.moveTo y.2).skipped).found = none :=
        literal_none_of_identifier (by rw [hd]; exact hx)
      simp [keyed, hkey, hno, hliteral]
  simp [argument, hkeyed, hsymbol]

/-- A word that is found at a place is found there with `v` behind. -/
theorem Carries.behind {l : Lexeme} {t u : List Char} (h : Carries l v)
    (hl : l c.rest = some (t, u)) (hc : skipBlanks c.rest = c.rest) :
    l (skipBlanks (c.rest ++ v)) = some (t, u ++ v) := by
  obtain ⟨hlt, hv⟩ := h _ _ _ hl
  rwa [skipBlanks_rest_append hc (List.ne_nil_of_length_pos (Nat.zero_lt_of_lt hlt))]

theorem Begins.behind (h : Begins k c.rest) (hv : Seam v) (hk : k ∈ keywords)
    (hc : skipBlanks c.rest = c.rest) : Begins k (skipBlanks (c.rest ++ v)) := by
  obtain ⟨x, hx⟩ := h
  exact ⟨_, (carries_keyword hv.boundary hk).behind hx hc⟩

theorem word_of_found {α : Type} {l : Lexeme} {f : List Char → Rule α} {y : α × Cursor}
    (h : ((Rule.lexeme l >>= f) c).found = some y) : ∃ x, l c.rest = some x := by
  obtain ⟨_, hl⟩ := found_of_bind h
  rw [Rule.found_lexeme] at hl
  obtain ⟨x, hl, -⟩ := Option.map_eq_some_iff.mp hl
  exact ⟨x, hl⟩

theorem word_of_found_located {α β : Type} {l : Lexeme} {f : List Char → Rule α}
    {g : α → Extent → β} {y : β × Cursor}
    (h : (located (Rule.lexeme l >>= f) g c).found = some y) : ∃ x, l c.rest = some x := by
  rw [found_located, Option.map_eq_some_iff] at h
  obtain ⟨_, h, -⟩ := h
  exact word_of_found h

theorem begins_do_of_found {blk : Rule Block} {y : Block × Cursor} (hblk : RefusesBlock blk)
    (h : (blk c).found = some y) : Begins "do" c.rest := by
  cases hdo : keyword "do" c.rest with
  | none =>
    rw [hblk c hdo] at h
    cases h
  | some x => exact ⟨x, hdo⟩

end

/-! ### Statements -/

section

variable {v : List Char} {S : List Char → Prop} {c c' : Cursor} {blk blk' : Rule Block}

theorem keeps_arguments (hv : Seam v) :
    Keeps v 0 EndsArgs (fun o o' => List.Forall₂ SameArgument (o.getD []) (o'.getD []))
      (Rule.optional (Rule.commaSeparated argument))
      (Rule.optional (Rule.commaSeparated argument)) :=
  (keeps_argument hv).optionalCommas hv (fun _ hw => hw.word.ne_cons rfl)
    fun d hd => hd.argument d rfl

theorem keeps_bindings (hv : Seam v) :
    Keeps v 0 (Begins "do") (fun o o' => List.Forall₂ SameBinding (o.getD []) (o'.getD []))
      (Rule.optional (Rule.commaSeparated binding))
      (Rule.optional (Rule.commaSeparated binding)) := by
  refine (keeps_binding hv).optionalCommas hv (fun _ hw => (hw.atWord (by decide)).ne_cons rfl) ?_
  intro d hd
  simp [binding, hd.key_none (by decide)]

theorem keeps_parameters (hv : Seam v) :
    Keeps v 0 (Begins "do")
      (fun o o' => List.Forall₂ (fun p q => p.name = q.name) (o.getD []) (o'.getD []))
      (Rule.optional (Rule.commaSeparated parameter))
      (Rule.optional (Rule.commaSeparated parameter)) := by
  refine (keeps_parameter hv).optionalCommas hv (fun _ hw => (hw.atWord (by decide)).ne_cons rfl) ?_
  intro d hd
  have hsymbol : (symbol d).found = none := found_symbol_none ((hd.atWord (by decide)).ne_cons rfl)
  simp [parameter, hsymbol]

theorem keeps_batch (hv : Seam v) (hblk : Keeps v 1 Always SameBlock blk blk')
    (hdo : RefusesBlock blk) : Keeps v 1 S SameStatement (batch blk) (batch blk') := by
  refine .located (R := fun x y => List.Forall₂ SameBinding x.1 y.1 ∧ SameBlock x.2 y.2)
    (.andThen hv (.lexeme (carries_keyword hv.boundary (by decide))) fun _ _ _ =>
      .seq hv (keeps_bindings hv) (fun ps ps' hps => .map hblk.anywhere fun _ _ hb =>
        ⟨hps, hb⟩) ?_) ?_
  · intro _ c b c' hf hc _
    obtain ⟨_, hb⟩ := found_of_bind hf
    exact (begins_do_of_found hdo hb).behind hv (by decide) hc
  · rintro ⟨ps, b⟩ ⟨ps', b'⟩ e e' ⟨hps, hb⟩
    exact .batch hps hb

theorem keeps_call (hv : Seam v) (hblk : Keeps v 1 Always SameBlock blk blk')
    (hdo : RefusesBlock blk) (hdo' : RefusesBlock blk') :
    Keeps v 1 EndsCall SameStatement (call blk) (call blk') := by
  have hnested : Keeps v 0 EndsCall (Option.Rel SameBlock) (Rule.optional blk)
      (Rule.optional blk') :=
    hblk.anywhere.optional fun d hd => hdo' d hd.block
  refine .located (R := fun x y => x.1 = y.1 ∧ List.Forall₂ SameArgument x.2.1 y.2.1 ∧
      Option.Rel SameBlock x.2.2 y.2.2)
    (.andThen hv ((Keeps.lexeme (carries_name hv.boundary))) fun _ _ hn =>
      .seq hv (keeps_arguments hv) (fun as as' has => .map hnested fun _ _ ho =>
        ⟨hn, has, ho⟩) ?_) ?_
  · intro _ c b c' hf hc hs
    cases hb : (blk c).found with
    | none =>
      simp only [Rule.found_bind, Rule.found_optional, hb, Option.map_none, Option.none_or,
        Option.bind_some, Rule.found_pure, Option.some.injEq, Prod.mk.injEq] at hf
      rw [hf.2]
      exact hs.toEndsArgs
    | some y =>
      exact ((begins_do_of_found hdo hb).behind hv (by decide) hc).endsArgs (by decide)
  · rintro ⟨n, as, o⟩ ⟨_, as', o'⟩ e e' ⟨rfl, has, ho⟩
    exact .call has ho

theorem keeps_statement (hv : Seam v) (hblk : Keeps v 1 Always SameBlock blk blk')
    (hdo : RefusesBlock blk) (hdo' : RefusesBlock blk') :
    Keeps v 1 EndsCall SameStatement (statement blk) (statement blk') := by
  refine .orElse (keeps_batch hv hblk hdo) (keeps_call hv hblk hdo hdo') ?_
  intro c x _ _ hcall d hd
  obtain ⟨⟨t, u⟩, hn⟩ := word_of_found_located hcall
  obtain ⟨-, hn'⟩ := carries_name hv.boundary _ _ _ hn
  have hbatch : keyword "batch" d.rest = none := by
    rw [name, ← hd] at hn'
    cases hi : identifier d.rest with
    | none =>
      rw [hi] at hn'
      cases hn'
    | some y => exact keyword_none_of_identifier (by decide) hi
  simp [batch, hbatch]

/-- A call that is cut off by a colon behind its name has neither arguments nor a block. -/
theorem rest_of_found_call {s : Statement} {t u : List Char} (hdo : RefusesBlock blk)
    (hi : identifier c.rest = some (t, ':' :: u)) (hu : ∀ rest, u ≠ ':' :: rest)
    (hsymbol : identifier u = none) (hf : (call blk c).found = some (s, c')) :
    c'.rest = ':' :: u := by
  have hsegments : segments (':' :: u).length (':' :: u) = ([], ':' :: u) :=
    segments_none (fun after h => hu after (List.cons.inj h).2) _
  have hname : name c.rest = some (t, ':' :: u) := by
    simp only [name, hi, hsegments, List.append_nil]
  generalize hd : c.moveTo (':' :: u) = d at *
  have hrest : d.rest = ':' :: u := by rw [← hd]; rfl
  have hskip : d.skipped = d := by
    have hblanks : skipBlanks d.rest = d.rest := by rw [hrest]; rfl
    rw [Cursor.skipped, hblanks, Cursor.moveTo_self]
  have hargument : (argument d).found = none := by
    have hkey : key d.rest = none := by rw [hrest]; rfl
    simp [argument, keyed_none hkey, found_symbol hrest, hsymbol]
  have hblock : (blk d).found = none := by
    apply hdo
    rw [hrest]
    exact keyword_cons_none rfl (by decide)
  simp [call, hname, hd, hskip, hargument, hblock, Rule.commaSeparated] at hf
  rw [← hf.2, hrest]

/-- No statement begins with what a call would go on over, if nothing of the kind comes next after
the statement. -/
theorem endsCall_of_statement {s : Statement} (hv : Seam v) (hdo : RefusesBlock blk)
    (hf : (statement blk c).found = some (s, c')) (hc : skipBlanks c.rest = c.rest)
    (hs : EndsCall (skipBlanks (c'.rest ++ v))) : EndsCall (skipBlanks (c.rest ++ v)) := by
  rw [statement, Rule.found_orElse, Option.or_eq_some_iff] at hf
  rcases hf with hbatch | ⟨-, hcall⟩
  · have hbegins : Begins "batch" c.rest := word_of_found_located hbatch
    exact (hbegins.behind hv (by decide) hc).endsCall (by decide) (by decide)
  · obtain ⟨⟨t, u⟩, hn⟩ := word_of_found_located hcall
    cases hi : identifier c.rest with
    | none =>
      rw [name, hi] at hn
      cases hn
    | some x =>
      obtain ⟨word, rest⟩ := x
      refine endsCall_identifier ((carries_identifier hv.boundary).behind hi hc) ?_
      intro u hu hsecond
      cases rest with
      | nil => exact absurd hu (hv.boundary.ne_cons (by decide))
      | cons y rest =>
        rw [List.cons_append] at hu
        obtain ⟨rfl, rfl⟩ := List.cons.inj hu
        have hsecond' : ∀ more, rest ≠ ':' :: more :=
          fun more h => hsecond (more ++ v) (by rw [h]; rfl)
        cases hsymbol : identifier rest with
        | some z =>
          rw [steady_identifier hv.boundary, hsymbol]
          exact ⟨_, rfl⟩
        | none =>
          -- Then the statement ends at the colon, where nothing may come next.
          have hend := rest_of_found_call hdo hi hsecond' hsymbol hcall
          rw [hend] at hs
          exact absurd rfl (hs.word.ne_cons rfl (rest ++ v))

theorem keeps_statements (hv : Seam v) (hblk : Keeps v 1 Always SameBlock blk blk')
    (hdo : RefusesBlock blk) (hdo' : RefusesBlock blk') :
    Keeps v 0 (Begins "end") (List.Forall₂ SameStatement) (Rule.star (statement blk))
      (Rule.star (statement blk')) := by
  refine (keeps_statement hv hblk hdo hdo').star hv (fun _ _ _ => endsCall_of_statement hv hdo)
    (fun _ hw => hw.endsCall (by decide) (by decide)) fun d hd => ?_
  exact statement_none_of_words (hd.keyword_none (by decide)) (hd.identifier_none (by decide))

theorem keeps_blockUpTo (hv : Seam v) {k l : Nat} (hkl : k ≤ l) :
    Keeps v 1 S SameBlock (blockUpTo k) (blockUpTo l) := by
  -- On the depth: the statements of a block have the blocks below.
  induction k generalizing l S with
  | zero => exact fun _ _ _ hf => nomatch hf
  | succ k ih =>
    cases l with
    | zero => omega
    | succ l =>
      have hstatements := keeps_statements hv (ih (Nat.le_of_succ_le_succ hkl))
        (refusesBlock_blockUpTo k) (refusesBlock_blockUpTo l)
      refine .located (.andThen hv (.lexeme (carries_keyword hv.boundary (by decide)))
        fun _ _ _ => .seq hv hstatements (fun ss ss' hss => .map (.lexeme
          (carries_keyword hv.boundary (by decide))) fun _ _ _ => hss) ?_) fun _ _ _ _ => .mk
      intro _ c b c' hf hc _
      have hend : Begins "end" c.rest := word_of_found hf
      exact hend.behind hv (by decide) hc

theorem keeps_block (hv : Seam v) : Keeps v 1 S SameBlock block block :=
  .depth fun _ _ => keeps_blockUpTo hv

/-! ### Declarations -/

theorem keeps_workers (hv : Seam v) : Keeps v 1 AtWord SameItem workers workers := by
  refine .andThen hv (.lexeme (carries_keyword hv.boundary (by decide))) fun _ _ _ =>
    .map ((Keeps.lexeme (carries_name hv.boundary)).commas hv fun _ hw => hw.ne_cons rfl) ?_
  intro ns ns' hns
  rw [List.forall₂_eq_eq_eq] at hns
  rw [hns]
  exact .workers ns'

theorem keeps_definition (hv : Seam v) : Keeps v 1 S SameItem definition definition := by
  refine .located (R := fun x y => x.1 = y.1 ∧
      List.Forall₂ (fun p q => p.name = q.name) x.2.1 y.2.1 ∧ SameBlock x.2.2 y.2.2)
    (.andThen hv (.lexeme (carries_keyword hv.boundary (by decide))) fun _ _ _ =>
      .andThen hv (.lexeme (carries_name hv.boundary)) fun _ _ hn =>
        .seq hv (keeps_parameters hv) (fun ps ps' hps => .map (keeps_block hv) fun _ _ hb =>
          ⟨hn, hps, hb⟩) ?_) ?_
  · intro _ c b c' hf hc _
    obtain ⟨_, hb⟩ := found_of_bind hf
    exact (begins_do_of_found refusesBlock_block hb).behind hv (by decide) hc
  · rintro ⟨n, ps, b⟩ ⟨_, ps', b'⟩ e e' ⟨rfl, hps, hb⟩
    exact .definition hps hb

theorem keeps_item (hv : Seam v) :
    Keeps v 1 AtWord SameItem (Rule.orElse workers definition)
      (Rule.orElse workers definition) := by
  refine .orElse (keeps_workers hv) (keeps_definition hv) ?_
  intro c x _ _ hdefinition d hd
  obtain ⟨⟨t, u⟩, hw⟩ := word_of_found_located hdefinition
  obtain ⟨-, hw'⟩ := carries_keyword hv.boundary (by decide) _ _ _ hw
  have hbegins : Begins "superworker" d.rest := by
    rw [hd]
    exact ⟨_, hw'⟩
  have hworkers : keyword "workers" d.rest = none := hbegins.keyword_none (by decide)
  simp [workers, hworkers]

theorem atWord_of_item {y : Item} (hv : Seam v)
    (hf : (Rule.orElse workers definition c).found = some (y, c'))
    (hc : skipBlanks c.rest = c.rest) : AtWord (skipBlanks (c.rest ++ v)) := by
  rw [Rule.found_orElse, Option.or_eq_some_iff] at hf
  rcases hf with hworkers | ⟨-, hdefinition⟩
  · have hbegins : Begins "workers" c.rest := word_of_found hworkers
    exact (hbegins.behind hv (by decide) hc).atWord (by decide)
  · have hbegins : Begins "superworker" c.rest := word_of_found_located hdefinition
    exact (hbegins.behind hv (by decide) hc).atWord (by decide)

end

end Workflow.Surface
