import Workflow.Proofs.Surface.ReadBack

/-!
Words and blanks with a text behind them. What follows begins with a line break, so it neither makes
a word longer nor goes on with a comment: a word is taken as it was, and blanks are passed over up
to the same place, or into what follows where nothing else was left.
-/

namespace Workflow.Surface

open Syntax (head?_dropWhile keyword_eq_some_iff keyword_eq_none_iff identifier_cons minus number_eq
  exponent_cons)

/-- Nothing, or a further line. -/
def Seam (v : List Char) : Prop := v = [] ∨ ∃ line, v = '\n' :: line

section

variable {v : List Char}

theorem Seam.boundary (hv : Seam v) : Boundary v := by
  rcases hv with rfl | ⟨line, rfl⟩
  · exact boundary_nil
  · rintro _ ⟨⟩
    decide

/-! ### Blanks -/

mutual

theorem skipBlanks_append : (w : List Char) → skipBlanks w ≠ [] →
    skipBlanks (w ++ v) = skipBlanks w ++ v
  | [], h => absurd rfl h
  | c :: w, h => by
    rw [List.cons_append, skipBlanks, skipBlanks]
    rw [skipBlanks] at h
    split
    · rename_i hc
      rw [if_pos hc] at h
      exact skipBlanks_append w h
    · rename_i hc
      rw [if_neg hc] at h
      split
      · rename_i hh
        rw [if_pos hh] at h
        exact skipComment_append w h
      · rfl

theorem skipComment_append : (w : List Char) → skipBlanks.skipComment w ≠ [] →
    skipBlanks.skipComment (w ++ v) = skipBlanks.skipComment w ++ v
  | [], h => absurd rfl h
  | c :: w, h => by
    rw [List.cons_append, skipBlanks.skipComment, skipBlanks.skipComment]
    rw [skipBlanks.skipComment] at h
    split
    · rename_i hc
      rw [if_pos hc] at h
      exact skipBlanks_append w h
    · rename_i hc
      rw [if_neg hc] at h
      exact skipComment_append w h

end

theorem Seam.skipComment (hv : Seam v) : skipBlanks.skipComment v = skipBlanks v := by
  rcases hv with rfl | ⟨line, rfl⟩
  · rfl
  · rw [skipBlanks.skipComment, if_pos rfl, skipBlanks, if_pos (by decide)]

mutual

theorem skipBlanks_append_nil (hv : Seam v) : (w : List Char) → skipBlanks w = [] →
    skipBlanks (w ++ v) = skipBlanks v
  | [], _ => rfl
  | c :: w, h => by
    rw [List.cons_append, skipBlanks]
    rw [skipBlanks] at h
    split
    · rename_i hc
      rw [if_pos hc] at h
      exact skipBlanks_append_nil hv w h
    · rename_i hc
      rw [if_neg hc] at h
      split
      · rename_i hh
        rw [if_pos hh] at h
        exact skipComment_append_nil hv w h
      · rename_i hh
        rw [if_neg hh] at h
        cases h

theorem skipComment_append_nil (hv : Seam v) : (w : List Char) →
    skipBlanks.skipComment w = [] → skipBlanks.skipComment (w ++ v) = skipBlanks v
  | [], _ => hv.skipComment
  | c :: w, h => by
    rw [List.cons_append, skipBlanks.skipComment]
    rw [skipBlanks.skipComment] at h
    split
    · rename_i hc
      rw [if_pos hc] at h
      exact skipBlanks_append_nil hv w h
    · rename_i hc
      rw [if_neg hc] at h
      exact skipComment_append_nil hv w h

end

/-- Blanks may as well be passed over before something is put behind. -/
theorem skipBlanks_skipBlanks_append (hv : Seam v) (w : List Char) :
    skipBlanks (skipBlanks w ++ v) = skipBlanks (w ++ v) := by
  by_cases h : skipBlanks w = []
  · rw [h, List.nil_append, skipBlanks_append_nil hv w h]
  · rw [skipBlanks_append w h, skipBlanks_append _ (by rwa [skipBlanks_idem]), skipBlanks_idem]

/-! ### Words -/

/-- The word is the same with `v` behind the text, or there is none with it either. -/
def Steady (l : Lexeme) (v : List Char) : Prop :=
  ∀ w, l (w ++ v) = (l w).map fun x => (x.1, x.2 ++ v)

/-- A word that is there is the same with `v` behind the text. -/
def Carries (l : Lexeme) (v : List Char) : Prop :=
  ∀ w t u, l w = some (t, u) → u.length < w.length ∧ l (w ++ v) = some (t, u ++ v)

theorem run_behind {p : Char → Bool} (hv : ∀ c ∈ v.head?, p c = false) (w : List Char) :
    (w ++ v).takeWhile p = w.takeWhile p ∧ (w ++ v).dropWhile p = w.dropWhile p ++ v := by
  have hw : ∀ c ∈ w.takeWhile p, p c = true := List.all_eq_true.mp List.all_takeWhile
  have hr : ∀ c ∈ (w.dropWhile p ++ v).head?, p c = false := by
    cases hd : w.dropWhile p with
    | nil => exact hv
    | cons x xs =>
      rintro _ ⟨⟩
      have hx : x ∈ (w.dropWhile p).head? := by rw [hd]; rfl
      exact head?_dropWhile x hx
  have hrun := run_append hw hr
  rwa [← List.append_assoc, List.takeWhile_append_dropWhile] at hrun

theorem steady_keyword (hv : Boundary v) (k : String) : Steady (keyword k) v := by
  intro w
  have hrun := run_behind (p := isIdentChar) (hv.head (by decide)) w
  cases hk : keyword k w with
  | none =>
    rw [keyword_eq_none_iff] at hk
    rwa [Option.map_none, keyword_eq_none_iff, hrun.1]
  | some x =>
    obtain ⟨ht, hx, hu⟩ := keyword_eq_some_iff.mp hk
    rw [Option.map_some, keyword_eq_some_iff, hrun.1, hrun.2]
    exact ⟨ht, hx, by rw [hu]⟩

theorem steady_identifier (hv : Boundary v) : Steady identifier v := by
  intro w
  cases w with
  | nil =>
    cases v with
    | nil => rfl
    | cons c v =>
      have hstart : isIdentStart c = false := hv.head (by decide) c rfl
      rw [List.nil_append, identifier_cons, hstart]
      rfl
  | cons c w =>
    have hrun := run_behind (p := isIdentChar) (hv.head (by decide)) (c :: w)
    rw [List.cons_append] at hrun ⊢
    rw [identifier_cons, identifier_cons, hrun.1, hrun.2]
    split <;> rfl

theorem segments_none {cs : List Char} (h : ∀ after, cs ≠ ':' :: ':' :: after) (fuel : Nat) :
    segments fuel cs = ([], cs) := by
  unfold segments
  split
  · rfl
  · split
    · exact absurd rfl (h _)
    · rfl

/-- The segments of a name, however many more are allowed for. -/
theorem segments_append (hv : Boundary v) {w : List Char} {n m : Nat} (hn : w.length ≤ n)
    (hm : w.length ≤ m) :
    segments m (w ++ v) = ((segments n w).1, (segments n w).2 ++ v) := by
  induction n generalizing w m with
  | zero =>
    obtain rfl := List.eq_nil_of_length_eq_zero (Nat.le_zero.mp hn)
    exact segments_boundary hv m
  | succ n ih =>
    by_cases hw : ∃ after, w = ':' :: ':' :: after
    · obtain ⟨after, rfl⟩ := hw
      cases m with
      | zero => simp at hm
      | succ m =>
        rw [List.cons_append, List.cons_append, segments, segments, steady_identifier hv after]
        cases hi : identifier after with
        | none => rfl
        | some x =>
          obtain ⟨text, rest⟩ := x
          obtain ⟨rfl, -⟩ := (Syntax.lexes_identifier).takes hi
          simp only [List.length_cons, List.length_append] at hn hm
          simp only [Option.map_some, ih (w := rest) (m := m) (by omega) (by omega)]
    · rw [not_exists] at hw
      rw [segments_none hw, segments_none]
      intro after ha
      cases w with
      | nil => exact absurd ha (hv.ne_cons (by decide))
      | cons c w =>
        cases w with
        | nil => exact absurd (List.cons.inj ha).2 (hv.ne_cons (by decide))
        | cons c' w =>
          obtain ⟨rfl, hrest⟩ := List.cons.inj ha
          obtain ⟨rfl, -⟩ := List.cons.inj hrest
          exact hw w rfl

theorem length_lt_of_spells {m : PegMode} {e : Syntax.Expression} {t rest : List Char}
    (h : Syntax.Spells m e t rest) (he : Syntax.grammar.Takes e) :
    rest.length < (t ++ rest).length := by
  obtain ⟨_, hms⟩ := h 0
  exact hms.length_lt he

theorem Steady.carries {l : Lexeme} {m : PegMode} {e : Syntax.Expression} (h : Steady l v)
    (hl : Syntax.Lexes l m e) (he : Syntax.grammar.Takes e) : Carries l v := by
  intro w t u hw
  obtain ⟨rfl, hs⟩ := hl.takes hw
  exact ⟨length_lt_of_spells hs he, by rw [h, hw]; rfl⟩

theorem carries_keyword (hv : Boundary v) {k : String} (hk : k ∈ keywords) :
    Carries (keyword k) v := by
  have hchars : ∀ k ∈ keywords, k.toList ≠ [] ∧ k.toList.all isIdentChar = true := by decide
  obtain ⟨hne, hall⟩ := hchars k hk
  exact (steady_keyword hv k).carries (Syntax.lexes_keyword hall) (.left (.text hne))

theorem carries_identifier (hv : Boundary v) : Carries identifier v :=
  (steady_identifier hv).carries Syntax.lexes_identifier (.right (.left (.alt .one (.text nofun))))

theorem carries_name (hv : Boundary v) : Carries name v := by
  intro w t u h
  obtain ⟨hw, hs⟩ := Syntax.lexes_name.takes h
  have hlt := length_lt_of_spells hs
    (.left (.rule (.right (.left (.alt .one (.text nofun))))))
  rw [← hw] at hlt
  refine ⟨hlt, ?_⟩
  rw [name] at h ⊢
  rw [steady_identifier hv w]
  cases hi : identifier w with
  | none =>
    rw [hi] at h
    cases h
  | some x =>
    have hsegments := segments_append hv (Nat.le_refl x.2.length)
      (m := (x.2 ++ v).length) (by simp)
    simp only [hi, Option.some.injEq, Prod.mk.injEq] at h
    obtain ⟨rfl, rfl⟩ := h
    simp only [Option.map_some, hsegments]

theorem key_eq_some_iff {w t u : List Char} :
    key w = some (t, u) ↔ identifier w = some (t, ':' :: u) ∧ ∀ rest, u ≠ ':' :: rest := by
  rw [key]
  split
  · rename_i text rest hi
    rw [hi]
    simp
    grind
  · rename_i text rest hi hno
    rw [hno]
    simp
    grind
  · simp_all

/-- A text that is put behind another does not begin with it. -/
theorem append_ne_cons {w : List Char} {c : Char} (hw : ∀ rest, w ≠ c :: rest)
    (hv : ∀ rest, v ≠ c :: rest) (rest : List Char) : w ++ v ≠ c :: rest := by
  cases w with
  | nil => exact hv rest
  | cons d w =>
    intro h
    exact hw w (by rw [(List.cons.inj h).1])

theorem carries_key (hv : Boundary v) : Carries key v := by
  intro w t u h
  have hlt := length_lt_of_spells (Syntax.key_takes h).2
    (.left (.rule (.right (.left (.alt .one (.text nofun))))))
  obtain ⟨hi, hcolon⟩ := key_eq_some_iff.mp h
  obtain ⟨hw, -⟩ := Syntax.lexes_identifier.takes hi
  refine ⟨by simpa [hw] using hlt, key_eq_some_iff.mpr ⟨?_, ?_⟩⟩
  · rw [steady_identifier hv, hi]
    rfl
  · exact append_ne_cons hcolon fun rest => hv.ne_cons (by decide)

/-! ### Strings and numbers -/

theorem steady_digits (hv : Boundary v) : Steady digits v := by
  intro w
  have hrun := run_behind (p := Char.isDigit) (hv.head (by decide)) w
  simp only [digits, run, hrun.1, hrun.2]
  by_cases h : (w.takeWhile Char.isDigit).isEmpty = true <;> simp [h]

theorem Steady.optional {l : Lexeme} (h : Steady l v) (w : List Char) :
    optional l (w ++ v) = ((optional l w).1, (optional l w).2 ++ v) := by
  rw [Surface.optional, Surface.optional, h]
  cases l w <;> rfl

theorem steady_fraction (hv : Seam v) : Steady fraction v := by
  intro w
  cases w with
  | nil => rcases hv with rfl | ⟨line, rfl⟩ <;> rfl
  | cons c w =>
    by_cases hc : c = '.'
    · subst hc
      rw [List.cons_append, fraction, fraction, steady_digits hv.boundary w]
      cases digits w <;> rfl
    · simp [fraction, hc]

theorem steady_sign (hv : Seam v) : Steady sign v := by
  intro w
  cases w with
  | nil => rcases hv with rfl | ⟨line, rfl⟩ <;> rfl
  | cons c w =>
    by_cases hp : c = '+'
    · subst hp
      rfl
    · by_cases hm : c = '-'
      · subst hm
        rfl
      · simp [sign, hp, hm]

theorem steady_exponent (hv : Seam v) : Steady exponent v := by
  intro w
  cases w with
  | nil => rcases hv with rfl | ⟨line, rfl⟩ <;> rfl
  | cons c w =>
    rw [List.cons_append, exponent_cons, exponent_cons, (steady_sign hv).optional w]
    split
    · rw [steady_digits hv.boundary]
      cases digits (Surface.optional sign w).2 <;> rfl
    · rfl

theorem minus_append (hv : Seam v) (w : List Char) :
    minus (w ++ v) = ((minus w).1, (minus w).2 ++ v) := by
  cases w with
  | nil => rcases hv with rfl | ⟨line, rfl⟩ <;> rfl
  | cons c w =>
    by_cases hc : c = '-'
    · subst hc
      rfl
    · simp [minus, hc]

theorem steady_number (hv : Seam v) : Steady number v := by
  intro w
  rw [number_eq, number_eq, minus_append hv, steady_digits hv.boundary]
  rcases digits (minus w).2 with _ | ⟨whole, rest⟩
  · rfl
  · simp only [Option.map_some, (steady_fraction hv).optional, (steady_exponent hv).optional]

theorem carries_number (hv : Seam v) : Carries number v :=
  (steady_number hv).carries Syntax.lexes_number (.right (.left (.left .one)))

theorem steady_boolean (hv : Boundary v) : Steady boolean v := by
  intro w
  rw [boolean, boolean, steady_keyword hv, steady_keyword hv, Option.map_or]

theorem carries_boolean (hv : Boundary v) : Carries boolean v :=
  (steady_boolean hv).carries Syntax.lexes_boolean
    (.left (.alt (.text (by decide)) (.text (by decide))))

theorem quoted_append {cs t u : List Char} (h : quoted cs = some (t, u)) :
    quoted (cs ++ v) = some (t, u ++ v) := by
  fun_induction quoted cs generalizing t u with
  | case1 => cases h
  | case2 cs =>
    cases h
    rfl
  | case3 c cs ih =>
    obtain ⟨⟨t', u'⟩, hq, he⟩ := Option.map_eq_some_iff.mp h
    cases he
    rw [List.cons_append, List.cons_append, quoted, ih hq]
    rfl
  | case4 => cases h
  | case5 c cs hq hb hb' ih =>
    obtain ⟨⟨t', u'⟩, hx, he⟩ := Option.map_eq_some_iff.mp h
    cases he
    have hne : c ≠ '\\' := by
      rintro rfl
      cases cs with
      | nil => exact hb' rfl rfl
      | cons d ds => exact hb d ds rfl rfl
    rw [List.cons_append, quoted, ih hx]
    · rfl
    · exact hq
    · exact fun _ _ h => absurd h hne
    · exact fun h => absurd h hne

theorem carries_string : Carries string v := by
  intro w t u h
  obtain ⟨hw, hs⟩ := Syntax.lexes_string.takes h
  have hlt := length_lt_of_spells hs (.left (.text (by decide)))
  rw [← hw] at hlt
  refine ⟨hlt, ?_⟩
  unfold string at h
  split at h
  · rename_i cs
    split at h
    · rename_i text rest hq
      cases h
      simp [string, quoted_append hq]
    · cases h
  · cases h

end

end Workflow.Surface
