import Workflow.Proofs.Surface.Seam

/-!
Rules on a text with a further line behind it. What a rule finds in a text it finds again there, and
goes on where the text did, or with the line where nothing else was left. What comes next may
matter: a call, for one, must not find more to take there than at the end of its text.
-/

namespace Workflow.Surface

variable {α β : Type} {v : List Char} {n m : Nat} {S S₁ : List Char → Prop}

/-- What `p` finds in a text, where `S` holds of what comes next, `q` finds the like of on the text
with `v` behind it, and both take `n` characters at least. -/
def Keeps (v : List Char) (n : Nat) (S : List Char → Prop) (R : α → α → Prop) (p q : Rule α) :
    Prop :=
  ∀ c a c', (p c).found = some (a, c') → skipBlanks c.rest = c.rest →
    S (skipBlanks (c'.rest ++ v)) → ∀ d : Cursor, d.rest = skipBlanks (c.rest ++ v) →
      c'.rest.length + n ≤ c.rest.length ∧ ∃ a' d', (q d).found = some (a', d') ∧ R a a' ∧
        skipBlanks d'.rest = skipBlanks (c'.rest ++ v) ∧ d'.rest.length + n ≤ d.rest.length

/-- Whatever comes next. -/
def Always (_ : List Char) : Prop := True

theorem skipBlanks_rest_append {c : Cursor} (hc : skipBlanks c.rest = c.rest) (hne : c.rest ≠ []) :
    skipBlanks (c.rest ++ v) = c.rest ++ v := by
  rw [skipBlanks_append _ (by rwa [hc]), hc]

/-- Where something is left of the text, the other cursor stands before the same with `v` behind. -/
theorem rest_eq_append {c d : Cursor} (hc : skipBlanks c.rest = c.rest) (hne : c.rest ≠ [])
    (hd : d.rest = skipBlanks (c.rest ++ v)) : d.rest = c.rest ++ v := by
  rw [hd, skipBlanks_rest_append hc hne]

theorem found_of_bind {p : Rule α} {f : α → Rule β} {c : Cursor} {y : β × Cursor}
    (h : ((p >>= f) c).found = some y) : ∃ x, (p c).found = some x := by
  rw [Rule.found_bind, Option.bind_eq_some_iff] at h
  obtain ⟨x, hx, -⟩ := h
  exact ⟨x, hx⟩

theorem rest_of_found_char {x : Char} {c : Cursor} {y : Unit × Cursor}
    (h : (Rule.char x c).found = some y) : ∃ rest, c.rest = x :: rest := by
  by_contra hx
  rw [not_exists] at hx
  rw [Rule.found_char_none hx] at h
  cases h

namespace Keeps

variable {R : α → α → Prop} {R' : β → β → Prop} {p q : Rule α}

theorem anywhere (h : Keeps v n Always R p q) : Keeps v n S R p q :=
  fun c a c' hf hc _ => h c a c' hf hc trivial

theorem congr {p₁ q₁ : Rule α} (h : Keeps v n S R p q) (hp : ∀ c, (p₁ c).found = (p c).found)
    (hq : ∀ c, (q₁ c).found = (q c).found) : Keeps v n S R p₁ q₁ := by
  intro c a c' hf
  rw [hp] at hf
  simpa only [hq] using h c a c' hf

theorem named (h : Keeps v n S R p q) : Keeps v n S R (Rule.named p) (Rule.named q) :=
  h.congr (fun _ => Rule.found_named p) fun _ => Rule.found_named q

theorem map {g g' : α → β} (h : Keeps v n S R p q) (hg : ∀ a a', R a a' → R' (g a) (g' a')) :
    Keeps v n S R' (p >>= fun a => pure (g a)) (q >>= fun a => pure (g' a)) := by
  intro c b c' hf hc hs d hd
  simp only [Rule.found_bind, Rule.found_pure, Option.bind_eq_some_iff, Option.some.injEq,
    Prod.mk.injEq] at hf
  obtain ⟨⟨a, _⟩, hp, rfl, rfl⟩ := hf
  obtain ⟨hl, a', d', hq, ha, hd', hl'⟩ := h c a _ hp hc hs d hd
  exact ⟨hl, g' a', d', by simp [hq], hg a a' ha, hd', hl'⟩

theorem located {f : α → Extent → β} (h : Keeps v n S R p q)
    (hf : ∀ a a' e e', R a a' → R' (f a e) (f a' e')) :
    Keeps v n S R' (located p f) (located q f) := by
  intro c b c' hfound hc hs d hd
  rw [found_located] at hfound
  obtain ⟨⟨a, e⟩, hp, he⟩ := Option.map_eq_some_iff.mp hfound
  cases he
  obtain ⟨hl, a', d', hq, ha, hd', hl'⟩ := h c a e hp hc hs d hd
  exact ⟨hl, f a' ⟨d.offset, d'.offset⟩, d', by simp [hq], hf a a' _ _ ha, hd', hl'⟩

theorem orElse_left {q₁ : Rule α} (h : Keeps v n S R p q) : Keeps v n S R p (Rule.orElse q q₁) := by
  intro c a c' hf hc hs d hd
  obtain ⟨hl, a', d', hq, hx⟩ := h c a c' hf hc hs d hd
  exact ⟨hl, a', d', by simp [hq], hx⟩

/-- Where the second rule finds something, the first one must not find more than before. -/
theorem orElse {p₁ q₁ : Rule α} (hp : Keeps v 1 S R p q) (hp₁ : Keeps v 1 S R p₁ q₁)
    (hno : ∀ c x, c.rest ≠ [] → (p c).found = none → (p₁ c).found = some x →
      ∀ d : Cursor, d.rest = c.rest ++ v → (q d).found = none) :
    Keeps v 1 S R (Rule.orElse p p₁) (Rule.orElse q q₁) := by
  intro c a c' hf hc hs d hd
  rw [Rule.found_orElse, Option.or_eq_some_iff] at hf
  rcases hf with hf | ⟨hnone, hf⟩
  · exact hp.orElse_left c a c' hf hc hs d hd
  · obtain ⟨hl, a', d', hq, hx⟩ := hp₁ c a c' hf hc hs d hd
    have hne : c.rest ≠ [] := List.ne_nil_of_length_pos (by omega)
    have hnone' := hno c _ hne hnone hf d (rest_eq_append hc hne hd)
    exact ⟨hl, a', d', by simp [hnone', hq], hx⟩

theorem optional (hp : Keeps v n S R p q) (hno : ∀ d : Cursor, S d.rest → (q d).found = none) :
    Keeps v 0 S (Option.Rel R) (Rule.optional p) (Rule.optional q) := by
  intro c o c' hf hc hs d hd
  rw [Rule.found_optional, Option.or_eq_some_iff, Option.map_eq_some_iff] at hf
  rcases hf with ⟨⟨a, e⟩, hf, he⟩ | ⟨-, he⟩
  · cases he
    obtain ⟨hl, a', d', hq, ha, hd', hl'⟩ := hp c a e hf hc hs d hd
    exact ⟨Nat.le_of_add_right_le hl, some a', d', by simp [hq], .some ha, hd', by omega⟩
  · cases he
    rw [← hd] at hs
    exact ⟨Nat.le_refl _, none, d, by simp [hno d hs], .none, by rw [hd, skipBlanks_idem],
      Nat.le_refl _⟩

/-- A rule, and behind blanks another. What comes next after the first is what the second begins
with, or what comes next after that. -/
theorem seq (hv : Seam v) {k k' : α → Rule β} (hp : Keeps v n S₁ R p q)
    (hk : ∀ a a', R a a' → Keeps v m S R' (k a) (k' a'))
    (hS : ∀ a c b c', (k a c).found = some (b, c') → skipBlanks c.rest = c.rest →
      S (skipBlanks (c'.rest ++ v)) → S₁ (skipBlanks (c.rest ++ v))) :
    Keeps v n S R' (p >>= fun a => Rule.skip >>= fun _ => k a)
      (q >>= fun a => Rule.skip >>= fun _ => k' a) := by
  intro c b c' hf hc hs d hd
  simp only [Rule.found_bind, Rule.found_skip, Option.bind_some, Option.bind_eq_some_iff] at hf
  obtain ⟨⟨a, c₁⟩, hp', hk'⟩ := hf
  have hskipped : skipBlanks c₁.skipped.rest = c₁.skipped.rest := skipBlanks_idem _
  have hs₁ : S₁ (skipBlanks (c₁.rest ++ v)) := by
    have hnext := hS a _ b c' hk' hskipped hs
    rwa [Cursor.skipped_rest, skipBlanks_skipBlanks_append hv] at hnext
  obtain ⟨hlc, a', d₁, hq, ha, hd₁, hl⟩ := hp c a c₁ hp' hc hs₁ d hd
  have hrest : d₁.skipped.rest = skipBlanks (c₁.skipped.rest ++ v) := by
    rw [Cursor.skipped_rest, Cursor.skipped_rest, hd₁, skipBlanks_skipBlanks_append hv]
  obtain ⟨hlc', b', d', hq', hb, hd', hl'⟩ :=
    hk a a' ha c₁.skipped b c' hk' hskipped hs d₁.skipped hrest
  have := c₁.length_skipped_le
  have := d₁.length_skipped_le
  exact ⟨by omega, b', d', by simp [hq, hq'], hb, hd', by omega⟩

/-- The same where it does not matter to the first rule what comes next. -/
theorem andThen (hv : Seam v) {k k' : α → Rule β} (hp : Keeps v n Always R p q)
    (hk : ∀ a a', R a a' → Keeps v m S R' (k a) (k' a')) :
    Keeps v n S R' (p >>= fun a => Rule.skip >>= fun _ => k a)
      (q >>= fun a => Rule.skip >>= fun _ => k' a) :=
  hp.seq hv hk fun _ _ _ _ _ _ _ => trivial

theorem lexeme {l : Lexeme} (h : Carries l v) :
    Keeps v 1 S Eq (Rule.lexeme l) (Rule.lexeme l) := by
  intro c t c' hf hc _ d hd
  rw [Rule.found_lexeme] at hf
  obtain ⟨⟨t, u⟩, hl, he⟩ := Option.map_eq_some_iff.mp hf
  cases he
  obtain ⟨hlt, hv⟩ := h _ _ _ hl
  have hrest := rest_eq_append hc (List.ne_nil_of_length_pos (Nat.zero_lt_of_lt hlt)) hd
  refine ⟨hlt, t, d.moveTo (u ++ v), by simp [hrest, hv], rfl, rfl, ?_⟩
  rw [hrest, Cursor.moveTo_rest, List.length_append, List.length_append]
  omega

theorem char {x : Char} : Keeps v 1 S Eq (Rule.char x) (Rule.char x) := by
  intro c _ c' hf hc _ d hd
  obtain ⟨rest, hx⟩ := rest_of_found_char hf
  rw [Rule.found_char hx] at hf
  cases hf
  have hrest := rest_eq_append hc (by rw [hx]; exact List.cons_ne_nil x rest) hd
  rw [hx, List.cons_append] at hrest
  exact ⟨by rw [hx]; exact Nat.le_refl _, (), _, Rule.found_char hrest, rfl, rfl,
    by rw [hrest]; exact Nat.le_refl _⟩

/-- Rules that may go as deep as the text is long. -/
theorem depth {p q : Nat → Rule α} (h : ∀ k l, k ≤ l → Keeps v n S R (p k) (q l)) :
    Keeps v n S R (fun c => p c.rest.length c) (fun c => q c.rest.length c) := by
  intro c a c' hf hc hs d hd
  refine h _ _ ?_ c a c' hf hc hs d hd
  by_cases hne : c.rest = []
  · rw [hne]
    exact Nat.zero_le _
  · rw [rest_eq_append hc hne hd, List.length_append]
    exact Nat.le_add_right _ _

end Keeps

/-! ### Repetition -/

section

variable {R : α → α → Prop} {p q : Rule α} {c c' : Cursor} {as : List α}

/-- A round of a repetition that takes nothing is the last one. -/
theorem found_star_last {a : α} (h : (p c.skipped).found = some (a, c'))
    (hlt : ¬ c'.rest.length < c.rest.length) : (Rule.star p c).found = some ([a], c') := by
  have hs : (Rule.andThen Rule.skip (fun _ => p) c).found = some (a, c') :=
    (Rule.found_bind Rule.skip fun _ => p).trans h
  rw [Rule.star]
  simp only [hs, if_neg hlt]

/-- From `d` on, rounds like `as` are made, up to what comes next in `u`; there the repetition goes
on. -/
def Resumes (q : Rule α) (R : α → α → Prop) (as : List α) (u : List Char) (d : Cursor) : Prop :=
  ∃ as' e, List.Forall₂ R as as' ∧ skipBlanks e.rest = skipBlanks u ∧
    e.rest.length ≤ d.rest.length ∧
    (Rule.star q d).found = (Rule.star q e).found.map fun x => (as' ++ x.1, x.2)

theorem Resumes.nil {u : List Char} {d : Cursor} (h : skipBlanks d.rest = skipBlanks u) :
    Resumes q R [] u d :=
  ⟨[], d, .nil, h, Nat.le_refl _, by simp⟩

theorem Resumes.cons {a a' : α} {u : List Char} {d d' : Cursor}
    (hq : (q d.skipped).found = some (a', d')) (ha : R a a')
    (hlt : d'.rest.length < d.rest.length) (h : Resumes q R as u d') :
    Resumes q R (a :: as) u d := by
  obtain ⟨as', e, has, he, hle, hstar⟩ := h
  refine ⟨a' :: as', e, .cons ha has, he, by omega, ?_⟩
  rw [Rule.found_star_cons hq hlt, hstar, Option.map_map]
  rfl

/-- The rounds of a repetition are made again. What comes next after a round is what the next one
begins with, so one learns of it from the end. -/
theorem Keeps.rounds (hv : Seam v) (hp : Keeps v 1 S R p q)
    (hstart : ∀ c a c', (p c).found = some (a, c') → skipBlanks c.rest = c.rest →
      S (skipBlanks (c'.rest ++ v)) → S (skipBlanks (c.rest ++ v)))
    (hf : (Rule.star p c).found = some (as, c')) (hs : S (skipBlanks (c'.rest ++ v))) :
    c'.rest.length ≤ c.rest.length ∧ S (skipBlanks (c.rest ++ v)) ∧
      ∀ d : Cursor, skipBlanks d.rest = skipBlanks (c.rest ++ v) →
        Resumes q R as (c'.rest ++ v) d := by
  induction hlen : c.rest.length using Nat.strongRecOn generalizing c as with
  | ind len ih =>
  subst hlen
  cases hround : (p c.skipped).found with
  | none =>
    cases (Rule.found_star_nil hround).symm.trans hf
    exact ⟨Nat.le_refl _, hs, fun d hd => .nil hd⟩
  | some x =>
    obtain ⟨a, c₁⟩ := x
    have hround' := hp _ _ _ hround (skipBlanks_idem _)
    have hle := c.length_skipped_le
    by_cases hlt : c₁.rest.length < c.rest.length
    · rw [Rule.found_star_cons hround hlt, Option.map_eq_some_iff] at hf
      obtain ⟨⟨more, c₂⟩, hstar, he⟩ := hf
      cases he
      obtain ⟨hle', hnext, hmore⟩ := ih _ hlt hstar rfl
      have hrest : skipBlanks (c.skipped.rest ++ v) = skipBlanks (c.rest ++ v) :=
        skipBlanks_skipBlanks_append hv c.rest
      have hbegin := hstart _ _ _ hround (skipBlanks_idem _) hnext
      rw [hrest] at hbegin
      refine ⟨by omega, hbegin, fun d hd => ?_⟩
      obtain ⟨-, a', d₁, hq, ha, hd₁, hlt'⟩ :=
        hround' hnext d.skipped (by rw [Cursor.skipped_rest, hd, hrest])
      have := d.length_skipped_le
      exact .cons hq ha (by omega) (hmore d₁ hd₁)
    · cases (found_star_last hround hlt).symm.trans hf
      obtain ⟨htaken, -⟩ := hround' hs ⟨0, _⟩ rfl
      omega

/-- A repetition ends where it did, if there is no further round to be made there. -/
theorem Keeps.star (hv : Seam v) (hp : Keeps v 1 S R p q)
    (hstart : ∀ c a c', (p c).found = some (a, c') → skipBlanks c.rest = c.rest →
      S (skipBlanks (c'.rest ++ v)) → S (skipBlanks (c.rest ++ v)))
    (hS : ∀ w, S₁ w → S w) (hstop : ∀ d : Cursor, S₁ d.rest → (q d).found = none) :
    Keeps v 0 S₁ (List.Forall₂ R) (Rule.star p) (Rule.star q) := by
  intro c as c' hf hc hs d hd
  obtain ⟨hl, -, hresume⟩ := hp.rounds hv hstart hf (hS _ hs)
  obtain ⟨as', e, has, he, hle, hstar⟩ := hresume d (by rw [hd, skipBlanks_idem])
  have hnone : (q e.skipped).found = none := hstop _ (by rw [Cursor.skipped_rest, he]; exact hs)
  refine ⟨hl, as', e, ?_, has, he, hle⟩
  rw [hstar, Rule.found_star_nil hnone]
  simp

/-- Items with commas between, where no comma comes next. -/
theorem Keeps.commas (hv : Seam v) (hp : Keeps v n Always R p q)
    (hS : ∀ w, S w → ∀ rest, w ≠ ',' :: rest) :
    Keeps v n S (List.Forall₂ R) (Rule.commaSeparated p) (Rule.commaSeparated q) := by
  have hmore : Keeps v 1 Always R (Rule.char ',' >>= fun _ => Rule.skip >>= fun _ => p)
      (Rule.char ',' >>= fun _ => Rule.skip >>= fun _ => q) :=
    Keeps.char.andThen hv fun _ _ _ => hp
  have hstop : ∀ d : Cursor, S d.rest →
      ((Rule.char ',' >>= fun _ => Rule.skip >>= fun _ => q) d).found = none := by
    intro d hd
    simp [Rule.found_char_none (hS _ hd)]
  have hmany := hmore.star hv (fun _ _ _ _ _ _ => trivial) (fun _ _ => trivial) hstop
  exact hp.andThen hv fun _ _ ha => hmany.map fun _ _ has => .cons ha has

/-- Items with commas between, or none at all. -/
theorem Keeps.optionalCommas (hv : Seam v) (hp : Keeps v n Always R p q)
    (hS : ∀ w, S w → ∀ rest, w ≠ ',' :: rest)
    (hno : ∀ d : Cursor, S d.rest → (q d).found = none) :
    Keeps v 0 S (fun o o' => List.Forall₂ R (o.getD []) (o'.getD []))
      (Rule.optional (Rule.commaSeparated p)) (Rule.optional (Rule.commaSeparated q)) := by
  have hmany := (hp.commas hv hS).optional fun d hd => by simp [Rule.commaSeparated, hno d hd]
  intro c o c' hf hc hs d hd
  obtain ⟨hl, o', d', hq, ho, hx⟩ := hmany c o c' hf hc hs d hd
  refine ⟨hl, o', d', hq, ?_, hx⟩
  cases ho with
  | none => exact .nil
  | some h => exact h

end

end Workflow.Surface
