import Mathlib.Data.List.Forall2
import Workflow.Proofs.Surface.Tokens

/-!
Rules on a text that was written down. A rule takes its tokens and stands before the next ones,
possibly with their gap still in front; `b` bounds the rest of the text behind it.
-/

namespace Workflow.Surface

/-! ### Gaps -/

theorem skipBlanks_gap {g cs : List Char} (h : IsGap g) :
    skipBlanks (g ++ cs) = skipBlanks cs := by
  induction h with
  | nil => rfl
  | blank hc _ ih => rw [List.cons_append, skipBlanks, if_pos hc, ih]
  | @comment w g hw _ ih =>
    have hline : ∀ c ∈ w, Syntax.inLine c = true := by
      intro c hc
      have hne : c ≠ '\n' := fun h => hw (h ▸ hc)
      simpa [Syntax.inLine] using hne
    rw [List.append_assoc, List.cons_append, skipBlanks, if_neg (by decide), if_pos rfl,
      Syntax.skipComment_eq, List.dropWhile_append_of_pos hline, List.cons_append,
      List.dropWhile_cons_of_neg (by decide), skipBlanks, if_pos (by decide), ih]

theorem boundary_gap {g cs : List Char} (h : IsGap g) (hg : g = [] → cs = []) :
    Boundary (g ++ cs) := by
  intro c hc
  cases h with
  | nil =>
    rw [hg rfl] at hc
    cases hc
  | @blank d g hd _ =>
    obtain rfl : d = c := by simpa using hc
    simp only [isBlank, Bool.or_eq_true, decide_eq_true_eq] at hd
    simp only [gapStarts, List.mem_cons, List.not_mem_nil, or_false]
    grind
  | comment =>
    obtain rfl : '#' = c := by simpa using hc
    decide

/-! ### Standing before tokens -/

/-- A token that no gap can begin with. -/
def Solid (t : Token) : Prop := ∃ c cs, t = c :: cs ∧ isBlank c = false ∧ c ≠ '#'

/-- The cursor is right before some tokens, the last of the text. -/
structure Stands (ts : List Token) (c : Cursor) : Prop where
  solid : ∀ t ∈ ts, Solid t
  spaced : Spaced ts c.rest

section

variable {t : Token} {ts us : List Token} {c : Cursor}

theorem Stands.rest_nil (h : Stands [] c) : c.rest = [] := by
  generalize hr : c.rest = r
  have hs := h.spaced
  rw [hr] at hs
  cases hs
  rfl

theorem Stands.skipBlanks_eq (h : Stands ts c) : skipBlanks c.rest = c.rest := by
  generalize hr : c.rest = r
  have hs := h.spaced
  rw [hr] at hs
  cases hs with
  | nil => rfl
  | @cons t =>
    obtain ⟨x, xs, rfl, hx, hx'⟩ := h.solid t List.mem_cons_self
    rw [List.cons_append, skipBlanks, if_neg (by simp [hx]), if_neg hx']

theorem Stands.skipped (h : Stands ts c) : c.skipped = c := by
  rw [Cursor.skipped, h.skipBlanks_eq, Cursor.moveTo_self]

/-- The first of the tokens, and what is behind it. -/
theorem Stands.split (h : Stands (t :: ts) c) : ∃ rest, c.rest = t ++ rest ∧ Boundary rest ∧
    t ≠ [] ∧ ∀ d : Cursor, d.rest = rest → Stands ts d.skipped := by
  generalize hr : c.rest = r
  have hs := h.spaced
  rw [hr] at hs
  cases hs with
  | @cons _ _ g cs hg hne hcs =>
    obtain ⟨x, xs, rfl, -, -⟩ := h.solid t List.mem_cons_self
    have hts : ∀ t ∈ ts, Solid t := fun u hu => h.solid u (List.mem_cons_of_mem _ hu)
    refine ⟨g ++ cs, rfl, boundary_gap hg fun hnil => ?_, List.cons_ne_nil _ _,
      fun d hd => ⟨hts, ?_⟩⟩
    · by_cases hts' : ts = []
      · subst hts'
        cases hcs
        rfl
      · exact absurd hnil (hne hts')
    · have hcs' : skipBlanks cs = cs := Stands.skipBlanks_eq (c := ⟨0, cs⟩) ⟨hts, hcs⟩
      rw [Cursor.skipped_rest, hd, skipBlanks_gap hg, hcs']
      exact hcs

end

/-! ### Reading -/

/-- A rule reads up to some tokens that come next, and its value is as it should be. -/
def Reads {α : Type} (p : Rule α) (c : Cursor) (b : Nat) (us : List Token) (P : α → Prop) : Prop :=
  ∃ a c', (p c).found = some (a, c') ∧ P a ∧ Stands us c'.skipped ∧ c'.rest.length ≤ b

namespace Reads

variable {α β : Type} {p q : Rule α} {c : Cursor} {b : Nat} {us vs : List Token} {P : α → Prop}
  {Q : β → Prop}

theorem mono (h : Reads p c b us P) {P' : α → Prop} (hP : ∀ a, P a → P' a) : Reads p c b us P' := by
  obtain ⟨a, c', hf, ha, hs, hb⟩ := h
  exact ⟨a, c', hf, hP a ha, hs, hb⟩

theorem weaken {b' : Nat} (h : Reads p c b us P) (hb : b ≤ b') : Reads p c b' us P := by
  obtain ⟨a, c', hf, ha, hs, hb'⟩ := h
  exact ⟨a, c', hf, ha, hs, Nat.le_trans hb' hb⟩

theorem congr (h : Reads p c b us P) (hq : (q c).found = (p c).found) : Reads q c b us P := by
  rw [Reads, hq]
  exact h

theorem map {g : α → β} (h : Reads p c b us P) (hg : ∀ a, P a → Q (g a)) :
    Reads (p >>= fun a => pure (g a)) c b us Q := by
  obtain ⟨a, c', hf, ha, hs, hb⟩ := h
  exact ⟨g a, c', by simp [hf], hg a ha, hs, hb⟩

theorem located {g : α → Extent → β} (h : Reads p c b us P) (hg : ∀ a e, P a → Q (g a e)) :
    Reads (located p g) c b us Q := by
  obtain ⟨a, c', hf, ha, hs, hb⟩ := h
  exact ⟨g a ⟨c.offset, c'.offset⟩, c', by simp [hf], hg a _ ha, hs, hb⟩

theorem named (h : Reads p c b us P) : Reads (Rule.named p) c b us P :=
  h.congr (Rule.found_named p)

theorem orElse (h : Reads p c b us P) : Reads (Rule.orElse p q) c b us P := by
  obtain ⟨a, c', hf, ha, hs, hb⟩ := h
  exact ⟨a, c', by simp [hf], ha, hs, hb⟩

theorem orElse_right (hp : (p c).found = none) (h : Reads q c b us P) :
    Reads (Rule.orElse p q) c b us P := by
  obtain ⟨a, c', hf, ha, hs, hb⟩ := h
  exact ⟨a, c', by simp [hp, hf], ha, hs, hb⟩

theorem optional {Q : Option α → Prop} (h : Reads p c b us P) (hQ : ∀ a, P a → Q (some a)) :
    Reads (Rule.optional p) c b us Q := by
  obtain ⟨a, c', hf, ha, hs, hb⟩ := h
  exact ⟨some a, c', by simp [hf], hQ a ha, hs, hb⟩

theorem absent {Q : Option α → Prop} (hp : (p c).found = none) (hs : Stands us c)
    (hb : c.rest.length ≤ b) (hQ : Q none) : Reads (Rule.optional p) c b us Q :=
  ⟨none, c, by simp [hp], hQ, hs.skipped.symm ▸ hs, hb⟩

theorem seq {k : α → Rule β} (h : Reads p c b us P)
    (hk : ∀ a d, P a → Stands us d → d.rest.length ≤ b → Reads (k a) d b vs Q) :
    Reads (p >>= fun a => Rule.skip >>= fun _ => k a) c b vs Q := by
  obtain ⟨a, c', hf, ha, hs, hb⟩ := h
  obtain ⟨a', c'', hf', ha', hs', hb'⟩ :=
    hk a c'.skipped ha hs (Nat.le_trans c'.length_skipped_le hb)
  exact ⟨a', c'', by simp [hf, hf'], ha', hs', hb'⟩

/-- A token that a lexeme takes. -/
theorem lexeme {l : Lexeme} {t : Token} {w : List Char} (h : Stands (t :: us) c)
    (hb : c.rest.length ≤ b + 1) (hl : ∀ rest, Boundary rest → l (t ++ rest) = some (w, rest)) :
    Reads (Rule.lexeme l) c b us (· = w) := by
  obtain ⟨rest, hr, hrest, hne, hs⟩ := h.split
  refine ⟨w, c.moveTo rest, by simp [hr, hl rest hrest], rfl, hs _ rfl, ?_⟩
  have := List.length_pos_iff.mpr hne
  rw [hr, List.length_append] at hb
  rw [Cursor.moveTo_rest]
  omega

theorem char {x : Char} (h : Stands ([x] :: us) c) (hb : c.rest.length ≤ b + 1) :
    Reads (Rule.char x) c b us fun _ => True := by
  obtain ⟨rest, hr, -, -, hs⟩ := h.split
  refine ⟨(), ⟨c.offset + x.utf8Size, rest⟩, Rule.found_char hr, trivial, hs _ rfl, ?_⟩
  simpa [hr] using hb

/-! #### Repetition -/

theorem star_nil (hp : (p c.skipped).found = none) (hs : Stands us c.skipped)
    (hb : c.rest.length ≤ b) : Reads (Rule.star p) c b us (· = []) :=
  ⟨[], c, Rule.found_star_nil hp, rfl, hs, hb⟩

theorem star_cons {b' : Nat} {Q : List α → Prop} (h : Reads p c.skipped b' us P)
    (hb : b' < c.rest.length)
    (hk : ∀ d, Stands us d.skipped → d.rest.length ≤ b' → Reads (Rule.star p) d b vs Q) :
    Reads (Rule.star p) c b vs fun as => ∃ a as', as = a :: as' ∧ P a ∧ Q as' := by
  obtain ⟨a, c', hf, ha, hs, hb'⟩ := h
  obtain ⟨as, c'', hf', has, hs', hb''⟩ := hk c' hs hb'
  refine ⟨a :: as, c'', ?_, ⟨a, as, rfl, ha, has⟩, hs', hb''⟩
  simp [Rule.found_star_cons hf (Nat.lt_of_le_of_lt hb' hb), hf']

end Reads

/-- The next token begins with another character. -/
def StartsNot (x : Char) (us : List Token) : Prop := ∀ t ∈ us.head?, ∀ cs, t ≠ x :: cs

theorem StartsNot.char {x : Char} {us : List Token} {c : Cursor} (h : StartsNot x us)
    (hs : Stands us c) : (Rule.char x c).found = none := by
  refine Rule.found_char_none fun rest hr => ?_
  match us with
  | [] => simp [hs.rest_nil] at hr
  | t :: us =>
    obtain ⟨rest', hr', -, hne, -⟩ := hs.split
    obtain ⟨y, ys, rfl⟩ := List.exists_cons_of_ne_nil hne
    rw [hr', List.cons_append] at hr
    exact h _ rfl ys (by rw [(List.cons.inj hr).1])

section

variable {α β : Type} {p : Rule α} {W : β → List Token → Prop} {P : β → α → Prop} {xs : List β}
  {ts us : List Token} {c : Cursor} {b : Nat}

/-- A rule reads each of some things that are written. -/
def ReadsAll (p : Rule α) (W : β → List Token → Prop) (P : β → α → Prop) (xs : List β) (b : Nat) :
    Prop :=
  ∀ x ∈ xs, ∀ ts us c b', W x ts → Stands (ts ++ us) c → c.rest.length ≤ b →
    c.rest.length ≤ b' + 1 → Reads p c b' us (P x)

theorem Stands.length_pos {t : Token} (h : Stands (t :: ts) c) : 0 < c.rest.length := by
  obtain ⟨rest, hr, -, hne, -⟩ := h.split
  rw [hr, List.length_append]
  have := List.length_pos_iff.mpr hne
  omega

/-- A comma, and what is written behind it. -/
theorem reads_afterComma {x : β} (hx : x ∈ xs) (hp : ReadsAll p W P xs b) (h : W x ts)
    (hs : Stands ([','] :: (ts ++ us)) c) (hb : c.rest.length ≤ b) :
    Reads (Rule.char ',' >>= fun _ => Rule.skip >>= fun _ => p) c (c.rest.length - 1) us (P x) := by
  have hpos := hs.length_pos
  refine .seq (.char hs (by omega)) fun _ d _ hd hdb => hp x hx ts us d _ h hd ?_ ?_ <;> omega

theorem reads_moreCommas (h : Commas W xs ts) (hp : ReadsAll p W P xs b) (hus : StartsNot ',' us)
    (hs : Stands ([','] :: (ts ++ us)) c.skipped) (hb : c.rest.length ≤ b) :
    Reads (Rule.star (Rule.char ',' >>= fun _ => Rule.skip >>= fun _ => p)) c b us
      (List.Forall₂ P xs) := by
  have hpos := hs.length_pos
  have hle := c.length_skipped_le
  induction h generalizing c with
  | one h =>
    refine (Reads.star_cons (reads_afterComma List.mem_cons_self hp h hs (by omega)) (by omega)
      fun d hd hdb => .star_nil (by simp [hus.char hd]) hd (by omega)).mono ?_
    rintro _ ⟨a, _, rfl, ha, rfl⟩
    exact .cons ha .nil
  | @cons x xs ts ts' h hmore ih =>
    rw [List.append_assoc] at hs
    refine (Reads.star_cons (reads_afterComma List.mem_cons_self hp h hs (by omega)) (by omega)
      fun d hd hdb => ih (fun y hy => hp y (List.mem_cons_of_mem _ hy)) hd (by omega)
        hd.length_pos d.length_skipped_le).mono ?_
    rintro _ ⟨a, as, rfl, ha, has⟩
    exact .cons ha has

theorem reads_commas (h : Commas W xs ts) (hp : ReadsAll p W P xs b) (hus : StartsNot ',' us)
    (hs : Stands (ts ++ us) c) (hb : c.rest.length ≤ b) :
    Reads (Rule.commaSeparated p) c b us (List.Forall₂ P xs) := by
  cases h with
  | one h =>
    refine .seq (hp _ List.mem_cons_self _ _ _ b h hs hb (by omega)) fun a d ha hd hdb =>
      .map (P := (· = [])) ?_ fun as has => ?_
    · rw [← hd.skipped] at hd
      exact .star_nil (by simp [hus.char hd]) hd hdb
    · rw [has]
      exact .cons ha .nil
  | cons h hmore =>
    rw [List.append_assoc] at hs
    refine .seq (hp _ List.mem_cons_self _ _ _ b h hs hb (by omega)) fun a d ha hd hdb =>
      .map ?_ fun as has => .cons ha has
    rw [← hd.skipped] at hd
    exact reads_moreCommas hmore (fun y hy => hp y (List.mem_cons_of_mem _ hy)) hus hd hdb

theorem reads_optional (h : Optional W xs ts) (hp : ReadsAll p W P xs b) (hus : StartsNot ',' us)
    (hnone : ∀ d, Stands us d → (p d).found = none) (hs : Stands (ts ++ us) c)
    (hb : c.rest.length ≤ b) :
    Reads (Rule.optional (Rule.commaSeparated p)) c b us fun as =>
      List.Forall₂ P xs (as.getD []) := by
  cases h with
  | none => exact .absent (by simp [Rule.commaSeparated, hnone c hs]) hs hb .nil
  | some h => exact (reads_commas h hp hus hs hb).optional fun _ has => has

/-- Things in a row, of which each begins with a token that may follow another. -/
theorem reads_row {O : Token → Prop} (h : Row W xs ts)
    (hO : ∀ x ∈ xs, ∀ ts, W x ts → ∃ t ts', ts = t :: ts' ∧ O t)
    (hp : ∀ x ∈ xs, ∀ ts us c b', W x ts → (∀ t ∈ us.head?, O t) → Stands (ts ++ us) c →
      c.rest.length ≤ b → c.rest.length ≤ b' + 1 → Reads p c b' us (P x))
    (hus : ∀ t ∈ us.head?, O t) (hnone : ∀ d, Stands us d → (p d).found = none)
    (hs : Stands (ts ++ us) c.skipped) (hb : c.rest.length ≤ b) :
    Reads (Rule.star p) c b us (List.Forall₂ P xs) := by
  -- Each round takes a character at least, which is what the repetition asks for.
  induction h generalizing c with
  | nil => exact (Reads.star_nil (hnone _ hs) hs hb).mono fun _ has => has ▸ .nil
  | @cons x xs ts ts' h hmore ih =>
    rw [List.append_assoc] at hs
    have hrest : ∀ t ∈ (ts' ++ us).head?, O t := by
      cases hmore with
      | nil => exact hus
      | cons h' _ =>
        obtain ⟨t, _, rfl, ht⟩ := hO _ (List.mem_cons_of_mem _ List.mem_cons_self) _ h'
        rintro _ ⟨⟩
        exact ht
    have hpos : 0 < c.skipped.rest.length := by
      obtain ⟨t, _, rfl, -⟩ := hO x List.mem_cons_self ts h
      exact hs.length_pos
    have hle := c.length_skipped_le
    refine (Reads.star_cons (hp x List.mem_cons_self ts _ _ (c.skipped.rest.length - 1) h hrest hs
      (by omega) (by omega)) (by omega) fun d hd hdb => ih (fun y hy => hO y
        (List.mem_cons_of_mem _ hy)) (fun y hy => hp y (List.mem_cons_of_mem _ hy)) hd
          (by omega)).mono ?_
    rintro _ ⟨a, as, rfl, ha, has⟩
    exact .cons ha has

end

end Workflow.Surface
