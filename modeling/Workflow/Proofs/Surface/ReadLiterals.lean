import Workflow.Proofs.Surface.ReadBack
import Workflow.Proofs.Surface.TokenValues

/-!
Literals are read back from what was written for them.
-/

namespace Workflow.Surface

/-- A literal that stands for a value. -/
def IsFor (v : Value) (l : Literal) : Prop := l.Accepted ∧ l.value = v

theorem isFor_array {vs : List Value} {ls : List Literal} (h : List.Forall₂ IsFor vs ls) :
    IsFor (.array vs) (.array ls) := by
  have hall : Literal.AllAccepted ls ∧ Literal.values ls = vs := by
    induction h with
    | nil => exact ⟨trivial, rfl⟩
    | cons h _ ih => exact ⟨⟨h.1, ih.1⟩, by rw [Literal.values, h.2, ih.2]⟩
  exact ⟨hall.1, by rw [Literal.value, hall.2]⟩

theorem isFor_token {text : List Char} {v : Value} {e : Extent} (h : readToken text = .ok v) :
    IsFor v (.token text e) := by
  refine ⟨⟨v, h⟩, ?_⟩
  rw [Literal.value, h]
  rfl

theorem string_none {cs : List Char} (h : ∀ rest, cs ≠ '"' :: rest) : string cs = none := by
  unfold string
  split
  · exact absurd rfl (h _)
  · rfl

/-- What a number can begin with. -/
theorem number_none {c : Char} {cs : List Char} (hm : c ≠ '-') (hd : c.isDigit = false) :
    number (c :: cs) = none := by
  have hminus : Syntax.minus (c :: cs) = ([], c :: cs) := by
    simp [Syntax.minus, hm]
  rw [Syntax.number_eq, hminus]
  simp [digits, run, hd]

/-- Neither a string nor a number begins with this character. -/
def IsPlainStart (x : Char) : Prop := x ≠ '"' ∧ x ≠ '-' ∧ x.isDigit = false

instance (x : Char) : Decidable (IsPlainStart x) :=
  inferInstanceAs (Decidable (x ≠ '"' ∧ x ≠ '-' ∧ x.isDigit = false))

section

variable {c : Cursor} {b : Nat} {us : List Token} {x : Char} {cs : List Char}

theorem found_string_none (hx : x ≠ '"') (hc : c.rest = x :: cs)
    {f : List Char → Extent → Literal} : (located (Rule.lexeme string) f c).found = none := by
  have hs : string c.rest = none := string_none fun rest h => hx (by
    rw [hc] at h
    exact (List.cons.inj h).1)
  simp [hs]

theorem found_number_none (hx : IsPlainStart x) (hc : c.rest = x :: cs)
    {f : List Char → Extent → Literal} : (located (Rule.lexeme number) f c).found = none := by
  have hn : number c.rest = none := by
    rw [hc]
    exact number_none hx.2.1 hx.2.2
  simp [hn]

theorem reads_string {s : String} {t : List Char} (h : Row Escapes s.toList t)
    (hs : Stands (('"' :: t ++ ['"']) :: us) c) (hb : c.rest.length ≤ b + 1) :
    Reads plainLiteral c b us (IsFor (.string s)) := by
  have hq : Quoted t := h.quoted fun _ _ he => he.quoted
  refine .orElse (.located (.lexeme hs hb fun rest _ => string_append hq) ?_)
  rintro _ e rfl
  exact isFor_token (readToken_string h)

theorem reads_integer {z : Int} (hz : HasBits z)
    (hs : Stands (decimal z :: us) c) (hb : c.rest.length ≤ b + 1) :
    Reads plainLiteral c b us (IsFor (.number (.integer z))) := by
  obtain ⟨rest, hr, -, -, -⟩ := hs.split
  obtain ⟨d, ds, hds, hd⟩ := decimal_cons z
  have hquote : d ≠ '"' := by
    rintro rfl
    rcases hd with hd | hd <;> cases hd
  rw [hds, List.cons_append] at hr
  refine .orElse_right (found_string_none hquote hr)
    (.orElse (.located (.lexeme hs hb fun _ => number_decimal z) ?_))
  rintro _ e rfl
  exact isFor_token (readToken_decimal hz)

/-- A keyword is neither a string nor a number. -/
theorem reads_keyword {k : String} {P : Literal → Prop} {p : Rule Literal} (hk : k ∈ keywords)
    (hs : Stands (k.toList :: us) c) (hp : Reads p c b us P) :
    Reads (Rule.orElse (located (Rule.lexeme string) .token)
      (Rule.orElse (located (Rule.lexeme number) .token) p)) c b us P := by
  obtain ⟨rest, hr, -, -, -⟩ := hs.split
  obtain ⟨x, cs, hx, hplain⟩ : ∃ x cs, k.toList = x :: cs ∧ IsPlainStart x := by
    simp only [keywords, List.mem_cons, List.not_mem_nil, or_false] at hk
    rcases hk with rfl | rfl | rfl | rfl | rfl | rfl | rfl | rfl <;> exact ⟨_, _, rfl, by decide⟩
  rw [hx, List.cons_append] at hr
  exact .orElse_right (found_string_none hplain.1 hr)
    (.orElse_right (found_number_none hplain hr) hp)

theorem boolean_true {rest : List Char} (hr : Boundary rest) :
    boolean ("true".toList ++ rest) = some ("true".toList, rest) := by
  rw [boolean, keyword_append (by decide) hr, Option.some_or]

theorem boolean_false {rest : List Char} (hr : Boundary rest) :
    boolean ("false".toList ++ rest) = some ("false".toList, rest) := by
  rw [boolean, keyword_ne (by decide) hr (by decide), Option.none_or,
    keyword_append (by decide) hr]

theorem reads_true (hs : Stands ("true".toList :: us) c) (hb : c.rest.length ≤ b + 1) :
    Reads plainLiteral c b us (IsFor (.bool true)) := by
  refine reads_keyword (by decide) hs (.orElse (.map (.lexeme hs hb fun _ => boolean_true) ?_))
  rintro _ rfl
  exact ⟨trivial, rfl⟩

theorem reads_false (hs : Stands ("false".toList :: us) c) (hb : c.rest.length ≤ b + 1) :
    Reads plainLiteral c b us (IsFor (.bool false)) := by
  refine reads_keyword (by decide) hs (.orElse (.map (.lexeme hs hb fun _ => boolean_false) ?_))
  rintro _ rfl
  exact ⟨trivial, rfl⟩

theorem reads_nil (hs : Stands ("nil".toList :: us) c) (hb : c.rest.length ≤ b + 1) :
    Reads plainLiteral c b us (IsFor .null) := by
  obtain ⟨rest, hr, hrest, -, -⟩ := hs.split
  have hboolean : boolean c.rest = none := by
    rw [hr, boolean, keyword_ne (by decide) hrest (by decide),
      keyword_ne (by decide) hrest (by decide), Option.or_none]
  refine reads_keyword (by decide) hs (.orElse_right (by simp [hboolean])
    (.map (.lexeme hs hb fun _ => keyword_append (by decide)) fun _ _ => ⟨trivial, rfl⟩))

/-- No keyword begins with this character. -/
theorem keyword_cons_none (hx : isIdentChar x = false) {k : String} (hk : k ∈ keywords) :
    keyword k (x :: cs) = none := by
  rw [Syntax.keyword_eq_none_iff, List.takeWhile_cons_of_neg (by simp [hx])]
  revert k
  decide

theorem plainLiteral_none (hx : IsPlainStart x) (hword : ∀ k ∈ keywords, keyword k (x :: cs) = none)
    (hc : c.rest = x :: cs) : (plainLiteral c).found = none := by
  rw [← hc] at hword
  have hboolean : boolean c.rest = none := by
    rw [boolean, hword _ (by decide), hword _ (by decide), Option.or_none]
  have hnil := hword "nil" (by decide)
  simp only [plainLiteral, Rule.found_orElse, found_string_none hx.1 hc, found_number_none hx hc]
  simp [hboolean, hnil]

/-! #### Arrays -/

theorem literalUpTo_none {depth : Nat} (hx : IsPlainStart x)
    (hword : ∀ k ∈ keywords, keyword k (x :: cs) = none) (hb : x ≠ '[') (hc : c.rest = x :: cs) :
    (literalUpTo depth c).found = none := by
  have hplain := plainLiteral_none hx hword hc
  match depth with
  | 0 => exact hplain
  | depth + 1 =>
    have hchar : (Rule.char '[' c).found = none := Rule.found_char_none fun rest hr => by
      rw [hc] at hr
      exact hb (List.cons.inj hr).1
    simp [literalUpTo, array, hplain, hchar]

theorem Reads.plain {depth : Nat} {P : Literal → Prop} (h : Reads plainLiteral c b us P) :
    Reads (literalUpTo depth) c b us P := by
  match depth with
  | 0 => exact h
  | depth + 1 => exact .orElse h

theorem reads_array {p : Rule Literal} {vs : List Value} {ts : List Token}
    (h : Optional WritesValue vs ts) (hp : ReadsAll p WritesValue IsFor vs (c.rest.length - 1))
    (hnone : ∀ d : Cursor, ∀ rest, d.rest = ']' :: rest → (p d).found = none)
    (hs : Stands (['['] :: (ts ++ ([']'] :: us))) c) (hb : c.rest.length ≤ b + 1) :
    Reads (array p) c b us (IsFor (.array vs)) := by
  have hpos := hs.length_pos
  refine .named (.weaken (b := c.rest.length - 1) ?_ (by omega))
  refine .seq (.char hs (by omega)) fun _ d _ hd hdb => .seq (reads_optional h hp ?_ ?_ hd hdb)
    fun ls d' hls hd' hdb' => .map (.char hd' (by omega)) fun _ _ => isFor_array hls
  · rintro _ ⟨⟩ _ ⟨⟩
  · intro d hd
    obtain ⟨rest, hr, -⟩ := hd.split
    exact hnone d rest hr

end

theorem reads_literalUpTo {v : Value} (hv : IsLiteral v) {depth : Nat} {ts us : List Token}
    {c : Cursor} {b : Nat} (h : WritesValue v ts) (hs : Stands (ts ++ us) c)
    (hd : c.rest.length ≤ depth) (hb : c.rest.length ≤ b + 1) :
    Reads (literalUpTo depth) c b us (IsFor v) := by
  induction hv generalizing depth ts us c b with
  | null =>
    cases h
    exact .plain (reads_nil hs hb)
  | bool =>
    cases h with
    | true => exact .plain (reads_true hs hb)
    | false => exact .plain (reads_false hs hb)
  | integer =>
    cases h with
    | integer hz => exact .plain (reads_integer hz hs hb)
  | string =>
    cases h with
    | string h => exact .plain (reads_string h hs hb)
  | @array vs hvs ih =>
    cases h with
    | @array _ ts h =>
      replace hs : Stands (['['] :: (ts ++ ([']'] :: us))) c := by simpa using hs
      have hpos := hs.length_pos
      obtain ⟨rest, hr, -⟩ := hs.split
      match depth with
      | 0 => omega
      | depth + 1 =>
        -- Behind the bracket the rest is shorter, so one level less is deep enough.
        refine .orElse_right (plainLiteral_none (by decide) (fun _ => keyword_cons_none rfl) hr)
          (reads_array h ?_ ?_ hs hb)
        · intro v hv ts us d b' hw hs' hd' hb'
          exact ih v hv hw hs' (by omega) hb'
        · exact fun d rest hr =>
            literalUpTo_none (by decide) (fun _ => keyword_cons_none rfl) (by decide) hr

end Workflow.Surface
