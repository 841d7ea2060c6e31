import Workflow.Proofs.Surface.Found
import Workflow.Proofs.Surface.Syntax

/-!
The words of the grammar. Within a word there are no blanks, so an expression there either takes a
text off the front of what it is given, or refuses it.
-/

namespace Workflow.Surface

namespace Syntax

open PegGrammar (Parses)

/-- The expression takes a text off the front of a rest. -/
def Spells (m : PegMode) (e : Expression) (t rest : List Char) : Prop :=
  ∀ n, ∃ ms, Parses grammar m e ⟨n, t ++ rest⟩ (some (ms, ⟨n + Text.utf8Length t, rest⟩))

def Refuses (m : PegMode) (e : Expression) (cs : List Char) : Prop :=
  ∀ n, Parses grammar m e ⟨n, cs⟩ none

/-! ### Expressions without blanks -/

section

variable {m : PegMode} {e f : Expression} {t t' rest cs : List Char}

theorem Spells.seq (hm : m ≠ .spaced) (he : Spells m e t (t' ++ rest)) (hf : Spells m f t' rest) :
    Spells m (.seq e f) (t ++ t') rest := by
  intro n
  obtain ⟨ms, hms⟩ := he n
  obtain ⟨ms', hms'⟩ := hf (n + Text.utf8Length t)
  rw [List.append_assoc, Text.utf8Length_append, ← Nat.add_assoc]
  exact ⟨_, .seq hms (.blanks_none hm) hms'⟩

theorem Refuses.seq_left (he : Refuses m e cs) : Refuses m (.seq e f) cs :=
  fun n => .seq_none (he n)

theorem Refuses.seq_right (hm : m ≠ .spaced) (he : Spells m e t rest) (hf : Refuses m f rest) :
    Refuses m (.seq e f) (t ++ rest) := by
  intro n
  obtain ⟨ms, hms⟩ := he n
  exact .seq hms (.blanks_none hm) (hf _)

theorem Spells.alt_left (he : Spells m e t rest) : Spells m (.alt e f) t rest := by
  intro n
  obtain ⟨ms, hms⟩ := he n
  exact ⟨ms, .alt_left hms⟩

theorem Spells.alt_right (he : Refuses m e (t ++ rest)) (hf : Spells m f t rest) :
    Spells m (.alt e f) t rest := by
  intro n
  obtain ⟨ms, hms⟩ := hf n
  exact ⟨ms, .alt_right (he n) hms⟩

theorem Refuses.alt (he : Refuses m e cs) (hf : Refuses m f cs) : Refuses m (.alt e f) cs :=
  fun n => .alt_right (he n) (hf n)

theorem Spells.opt (he : Spells m e t rest) : Spells m (.opt e) t rest := by
  intro n
  obtain ⟨ms, hms⟩ := he n
  exact ⟨ms, .opt hms⟩

theorem Spells.opt_nil (he : Refuses m e cs) : Spells m (.opt e) [] cs :=
  fun n => ⟨[], .opt_none (he n)⟩

theorem Spells.no (he : Refuses m e cs) : Spells m (.no e) [] cs := fun n => ⟨[], .no_none (he n)⟩

theorem Refuses.no (he : Spells m e t rest) : Refuses m (.no e) (t ++ rest) := by
  intro n
  obtain ⟨ms, hms⟩ := he n
  exact .no hms

theorem Spells.again_nil (hm : m ≠ .spaced) (he : Refuses m e cs) : Spells m (.again e) [] cs :=
  fun n => ⟨[], .again_none (.blanks_none hm) (he n)⟩

theorem Spells.again_cons (hm : m ≠ .spaced) (he : Spells m e t (t' ++ rest))
    (ha : Spells m (.again e) t' rest) : Spells m (.again e) (t ++ t') rest := by
  intro n
  obtain ⟨ms, hms⟩ := he n
  obtain ⟨ms', hms'⟩ := ha (n + Text.utf8Length t)
  rw [List.append_assoc, Text.utf8Length_append, ← Nat.add_assoc]
  exact ⟨_, .again (.blanks_none hm) hms hms'⟩

theorem Spells.star (ha : Spells m (.again e) t rest) (hm : m ≠ .spaced) :
    Spells m (.star e) t rest := by
  intro n
  obtain ⟨ms, hms⟩ := ha n
  exact ⟨ms, hms.star_of_again (.blanks_none hm)⟩

theorem Spells.rule {r : RuleName} (h : Spells (r.kind.mode m) r.expression t rest) :
    Spells m (.rule r) t rest := by
  intro n
  obtain ⟨ms, hms⟩ := h n
  exact ⟨_, .rule hms⟩

theorem Refuses.rule {r : RuleName} (h : Refuses (r.kind.mode m) r.expression cs) :
    Refuses m (.rule r) cs := fun n => .rule (h n)

theorem Spells.text : Spells m (.text t) t rest := fun _ => ⟨[], .text rfl⟩

theorem Refuses.text (h : ∀ rest, cs ≠ t ++ rest) : Refuses m (.text t) cs :=
  fun _ => .text_none h

theorem Spells.one {p : Char → Bool} {c : Char} (h : p c = true) :
    Spells m (.one p) [c] rest := fun _ => ⟨[], .one rfl h⟩

theorem Refuses.one {p : Char → Bool} (h : ∀ c ∈ cs.head?, p c = false) :
    Refuses m (.one p) cs :=
  fun _ => .one_none fun c rest hc => h c (by rw [show cs = c :: rest from hc]; rfl)

end

/-! ### Classes of characters -/

/-- The expression takes one character of a class. -/
structure Class (m : PegMode) (e : Expression) (p : Char → Bool) : Prop where
  takes : ∀ {c : Char} {rest : List Char}, p c = true → Spells m e [c] rest
  refuses : ∀ {cs : List Char}, (∀ c ∈ cs.head?, p c = false) → Refuses m e cs

namespace Class

variable {m : PegMode} {e f : Expression} {p q : Char → Bool}

theorem one : Class m (.one p) p := ⟨Spells.one, Refuses.one⟩

theorem text {x : Char} : Class m (.text [x]) (· = x) where
  takes h := by
    rw [of_decide_eq_true h]
    exact Spells.text
  refuses h := .text fun rest hr => by simpa using h x (by simp [hr])

theorem alt (he : Class m e p) (hf : Class m f q) : Class m (.alt e f) fun c => p c || q c where
  takes {c rest} h := by
    by_cases hp : p c = true
    · exact (he.takes hp).alt_left
    · refine .alt_right (he.refuses ?_) (hf.takes (by simpa [hp] using h))
      simpa using hp
  refuses h := by
    refine .alt (he.refuses fun c hc => ?_) (hf.refuses fun c hc => ?_)
    · exact (Bool.or_eq_false_iff.mp (h c hc)).1
    · exact (Bool.or_eq_false_iff.mp (h c hc)).2

/-- A character that is not of a class. -/
theorem other (h : Class m e p) (hm : m ≠ .spaced) : Class m (.seq (.no e) any) (! p ·) where
  takes hc := .seq (t := []) hm (.no (h.refuses (by simpa using hc))) (.one rfl)
  refuses {cs} hc := by
    match cs with
    | [] => exact .seq_right (t := []) hm (.no (h.refuses (by simp))) (.one (by simp))
    | c :: cs => exact .seq_left (.no (t := [c]) (h.takes (by simpa using hc)))

theorem rule {r : RuleName} (h : Class (r.kind.mode m) r.expression p) : Class m (.rule r) p :=
  ⟨fun hp => (h.takes hp).rule, fun hp => (h.refuses hp).rule⟩

/-- The longest run of the class. -/
theorem again (h : Class m e p) (hm : m ≠ .spaced) (cs : List Char) :
    Spells m (.again e) (cs.takeWhile p) (cs.dropWhile p) := by
  induction cs with
  | nil => exact .again_nil hm (h.refuses (by simp))
  | cons c cs ih =>
    by_cases hc : p c = true
    · rw [List.takeWhile_cons_of_pos hc, List.dropWhile_cons_of_pos hc]
      exact .again_cons hm (h.takes hc) ih
    · rw [List.takeWhile_cons_of_neg hc, List.dropWhile_cons_of_neg hc]
      exact .again_nil hm (h.refuses (by simpa using hc))

theorem star (h : Class m e p) (hm : m ≠ .spaced) (cs : List Char) :
    Spells m (.star e) (cs.takeWhile p) (cs.dropWhile p) := (h.again hm cs).star hm

end Class

theorem class_identChar : Class .word (.rule .identChar) isIdentChar := .rule (.alt .one .text)

theorem class_identStart : Class .word (.alt letter (lit "_")) isIdentStart := .alt .one .text

/-! ### Blanks -/

def inLine (c : Char) : Bool := ! decide (c = '\n')

theorem skipComment_eq (cs : List Char) :
    skipBlanks.skipComment cs = skipBlanks (cs.dropWhile inLine) := by
  induction cs with
  | nil => rfl
  | cons c cs ih =>
    by_cases hc : c = '\n'
    · subst hc
      rfl
    · rw [skipBlanks.skipComment, if_neg hc, ih, List.dropWhile_cons_of_pos]
      simpa [inLine] using hc

theorem class_whitespace : Class .word (.rule .whitespace) isBlank := by
  have h : Class .word RuleName.whitespace.expression fun c =>
      c = ' ' || (c = '\t' || (c = '\r' || c = '\n')) :=
    .alt .text (.alt .text (.alt .text .text))
  simp only [← Bool.or_assoc] at h
  exact .rule h

theorem class_newline {m : PegMode} : Class m (lit "\n") (· = '\n') := .text

theorem class_inLine : Class .word (.seq (.no (lit "\n")) any) inLine :=
  class_newline.other nofun

theorem spells_comment (cs : List Char) :
    Spells .word (.rule .comment) ('#' :: cs.takeWhile inLine) (cs.dropWhile inLine) :=
  .rule (.seq (t := ['#']) nofun .text (class_inLine.star nofun cs))

theorem class_hash {m : PegMode} : Class m (lit "#") (· = '#') := .text

theorem refuses_comment {cs : List Char} (h : ∀ c ∈ cs.head?, c ≠ '#') :
    Refuses .word (.rule .comment) cs :=
  .rule (.seq_left (class_hash.refuses (by simpa using h)))

def blank : Expression := .alt (.rule .whitespace) (.rule .comment)

/-- The blanks of the grammar are those that are skipped. -/
theorem spells_again_blank (cs : List Char) :
    ∃ t, cs = t ++ skipBlanks cs ∧ Spells .word (.again blank) t (skipBlanks cs) := by
  induction hlen : cs.length using Nat.strongRecOn generalizing cs with
  | ind n ih =>
  subst hlen
  cases cs with
  | nil =>
    rw [skipBlanks]
    refine ⟨[], rfl, .again_nil nofun (.alt (class_whitespace.refuses (by simp)) ?_)⟩
    exact refuses_comment (by simp)
  | cons c cs =>
    rw [skipBlanks]
    split
    · rename_i hb
      obtain ⟨t, ht, hs⟩ := ih cs.length (Nat.lt_succ_self _) cs rfl
      exact ⟨c :: t, by rw [List.cons_append, ← ht],
        .again_cons (t := [c]) nofun (.alt_left (class_whitespace.takes hb)) hs⟩
    · split
      · rename_i hb hc
        subst hc
        rw [skipComment_eq]
        have hshort : (cs.dropWhile inLine).length ≤ cs.length :=
          (List.dropWhile_suffix _).length_le
        obtain ⟨t, ht, hs⟩ := ih _ (Nat.lt_succ_of_le hshort) (cs.dropWhile inLine) rfl
        refine ⟨'#' :: cs.takeWhile inLine ++ t, ?_, .again_cons nofun (.alt_right ?_ ?_) hs⟩
        · rw [List.append_assoc, ← ht, List.cons_append, List.takeWhile_append_dropWhile]
        · exact class_whitespace.refuses (by simp [isBlank])
        · rw [← ht]
          exact spells_comment cs
      · rename_i hb hc
        refine ⟨[], rfl, .again_nil nofun (.alt (class_whitespace.refuses (by simpa using hb)) ?_)⟩
        exact refuses_comment (by simpa using hc)

/-! ### Words of a list -/

/-- Either the first of some texts stands here, or none. -/
theorem texts_cases (m : PegMode) (ws : List String) (cs : List Char) :
    (∃ w ∈ ws, ∃ rest, cs = w.toList ++ rest ∧ Spells m (Peg.texts ws) w.toList rest) ∨
      ((∀ w ∈ ws, ∀ rest, cs ≠ w.toList ++ rest) ∧ Refuses m (Peg.texts ws) cs) := by
  fun_induction Peg.texts ws with
  | case1 => exact .inr ⟨by simp, .no (t := []) .text⟩
  | case2 w =>
    by_cases h : ∃ rest, cs = w.toList ++ rest
    · obtain ⟨rest, rfl⟩ := h
      exact .inl ⟨w, by simp, rest, rfl, .text⟩
    · rw [not_exists] at h
      exact .inr ⟨by simpa using h, .text h⟩
  | case3 w ws hne ih =>
    by_cases h : ∃ rest, cs = w.toList ++ rest
    · obtain ⟨rest, rfl⟩ := h
      exact .inl ⟨w, by simp, rest, rfl, .alt_left .text⟩
    · rw [not_exists] at h
      rcases ih with ⟨v, hv, rest, rfl, hs⟩ | ⟨hn, hr⟩
      · exact .inl ⟨v, List.mem_cons_of_mem _ hv, rest, rfl, .alt_right (.text h) hs⟩
      · exact .inr ⟨List.forall_mem_cons.mpr ⟨h, hn⟩, .alt (.text h) hr⟩

theorem head?_dropWhile {p : Char → Bool} {cs : List Char} :
    ∀ c ∈ (cs.dropWhile p).head?, p c = false := by
  intro c hc
  have := List.head?_dropWhile_not p cs
  rw [Option.mem_def.mp hc] at this
  simpa using this

section Words

variable {ws : List String} {cs : List Char}

theorem spells_words (hp : ∀ v ∈ ws, ∀ w ∈ ws, v.toList <+: w.toList → v = w)
    (h : ∃ w ∈ ws, w.toList = cs.takeWhile isIdentChar) :
    Spells .word (words ws) (cs.takeWhile isIdentChar) (cs.dropWhile isIdentChar) := by
  obtain ⟨w, hw, ht⟩ := h
  have hcs : cs = w.toList ++ cs.dropWhile isIdentChar := by
    rw [ht, List.takeWhile_append_dropWhile]
  rcases texts_cases .word ws cs with ⟨v, hv, rest, hv', hs⟩ | ⟨hn, -⟩
  · have hvw : v = w := by
      rcases List.prefix_or_prefix_of_prefix ⟨rest, hv'.symm⟩ ⟨_, hcs.symm⟩ with h | h
      · exact hp v hv w hw h
      · exact (hp w hw v hv h).symm
    subst hvw
    obtain rfl := List.append_cancel_left (hv'.symm.trans hcs)
    rw [← ht, ← List.append_nil v.toList]
    exact .seq nofun hs (.no (class_identChar.refuses head?_dropWhile))
  · exact absurd hcs (hn w hw _)

theorem refuses_words (hc : (ws.all fun w => w.toList.all isIdentChar) = true)
    (h : ∀ w ∈ ws, w.toList ≠ cs.takeWhile isIdentChar) : Refuses .word (words ws) cs := by
  have hc : ∀ w ∈ ws, ∀ c ∈ w.toList, isIdentChar c = true := by simpa using hc
  rcases texts_cases .word ws cs with ⟨w, hw, rest, rfl, hs⟩ | ⟨-, hr⟩
  · refine .seq_right nofun hs ?_
    -- Nothing behind the word would mean that it is the whole run.
    match rest with
    | [] =>
      refine absurd ?_ (h w hw)
      rw [List.takeWhile_append_of_pos (hc w hw), List.takeWhile_nil, List.append_nil]
    | c :: rest =>
      by_cases hcc : isIdentChar c = true
      · exact .no (t := [c]) (class_identChar.takes hcc)
      · refine absurd ?_ (h w hw)
        rw [List.takeWhile_append_of_pos (hc w hw), List.takeWhile_cons_of_neg hcc,
          List.append_nil]
  · exact .seq_left hr

end Words

/-- A lexeme takes what an expression takes. -/
structure Lexes (l : Lexeme) (m : PegMode) (e : Expression) : Prop where
  takes : ∀ {cs t rest : List Char}, l cs = some (t, rest) → cs = t ++ rest ∧ Spells m e t rest
  refuses : ∀ {cs : List Char}, l cs = none → Refuses m e cs

theorem keyword_eq_some_iff {w : String} {cs t rest : List Char} :
    keyword w cs = some (t, rest) ↔ w.toList = cs.takeWhile isIdentChar ∧
      t = cs.takeWhile isIdentChar ∧ rest = cs.dropWhile isIdentChar := by
  show (if cs.takeWhile isIdentChar = w.toList then
    some (cs.takeWhile isIdentChar, cs.dropWhile isIdentChar) else none) = _ ↔ _
  rw [Option.ite_none_right_eq_some, Option.some.injEq, Prod.mk.injEq]
  grind

theorem keyword_eq_none_iff {w : String} {cs : List Char} :
    keyword w cs = none ↔ w.toList ≠ cs.takeWhile isIdentChar := by
  show (if cs.takeWhile isIdentChar = w.toList then
    some (cs.takeWhile isIdentChar, cs.dropWhile isIdentChar) else none) = _ ↔ _
  grind

theorem lexes_keyword {w : String} (hc : w.toList.all isIdentChar = true) :
    Lexes (keyword w) .word (words [w]) where
  takes h := by
    obtain ⟨hw, rfl, rfl⟩ := keyword_eq_some_iff.mp h
    exact ⟨List.takeWhile_append_dropWhile.symm, spells_words (by simp) ⟨w, by simp, hw⟩⟩
  refuses h := refuses_words (by rw [List.all_cons, hc]; rfl)
    (by simpa using keyword_eq_none_iff.mp h)

theorem lexes_boolean : Lexes boolean .word (words ["true", "false"]) where
  takes {cs t rest} h := by
    rw [boolean, Option.or_eq_some_iff, keyword_eq_some_iff, keyword_eq_some_iff] at h
    rcases h with ⟨hw, rfl, rfl⟩ | ⟨-, hw, rfl, rfl⟩
    · exact ⟨List.takeWhile_append_dropWhile.symm,
        spells_words (by decide) ⟨"true", by simp, hw⟩⟩
    · exact ⟨List.takeWhile_append_dropWhile.symm,
        spells_words (by decide) ⟨"false", by simp, hw⟩⟩
  refuses h := by
    rw [boolean, Option.or_eq_none_iff, keyword_eq_none_iff, keyword_eq_none_iff] at h
    exact refuses_words (by decide)
      (List.forall_mem_cons.mpr ⟨h.1, List.forall_mem_singleton.mpr h.2⟩)

/-! ### Names -/

theorem isKeyword_iff {w : List Char} : isKeyword w = true ↔ ∃ k ∈ keywords, k.toList = w := by
  simp [isKeyword]

theorem spells_keyword {cs : List Char} (h : isKeyword (cs.takeWhile isIdentChar) = true) :
    Spells .word (.rule .keyword) (cs.takeWhile isIdentChar) (cs.dropWhile isIdentChar) := by
  have hs : Spells .word (words keywords) _ _ := spells_words (by decide) (isKeyword_iff.mp h)
  exact .rule hs

theorem refuses_keyword {cs : List Char} (h : isKeyword (cs.takeWhile isIdentChar) = false) :
    Refuses .word (.rule .keyword) cs := by
  have hs : Refuses .word (words keywords) cs := by
    refine refuses_words (by decide) fun w hw ht => ?_
    rw [isKeyword_iff.mpr ⟨w, hw, ht⟩] at h
    cases h
  exact .rule hs

theorem isIdentChar_of_isIdentStart {c : Char} (h : isIdentStart c = true) :
    isIdentChar c = true := by
  simp only [isIdentStart, isIdentChar, Char.isAlphanum, Bool.or_eq_true] at h ⊢
  exact h.imp_left .inl

theorem identifier_cons (c : Char) (cs : List Char) :
    identifier (c :: cs) =
      if isIdentStart c && ! isKeyword ((c :: cs).takeWhile isIdentChar) then
        some ((c :: cs).takeWhile isIdentChar, (c :: cs).dropWhile isIdentChar)
      else none := rfl

theorem lexes_identifier : Lexes identifier .word RuleName.identifier.expression where
  takes {cs t rest} h := by
    match cs with
    | [] => cases h
    | c :: cs =>
      rw [identifier_cons] at h
      split at h
      · rename_i hc
        obtain ⟨hstart, hkey⟩ := Bool.and_eq_true_iff.mp hc
        cases h
        refine ⟨List.takeWhile_append_dropWhile.symm, ?_⟩
        have hno : Refuses .word (.rule .keyword) (c :: cs) :=
          refuses_keyword (by simpa using hkey)
        have hpos := isIdentChar_of_isIdentStart hstart
        rw [List.takeWhile_cons_of_pos hpos, List.dropWhile_cons_of_pos hpos]
        refine .seq (t := []) nofun (.no ?_) (.seq (t := [c]) nofun (class_identStart.takes hstart)
          (class_identChar.star nofun cs))
        simpa using hno
      · cases h
  refuses {cs} h := by
    by_cases hkey : isKeyword (cs.takeWhile isIdentChar) = true
    · have hno := Refuses.no (spells_keyword hkey)
      rw [List.takeWhile_append_dropWhile] at hno
      exact hno.seq_left
    · refine .seq_right (t := []) nofun (.no (refuses_keyword (by simpa using hkey))) ?_
      refine .seq_left (class_identStart.refuses fun c hc => ?_)
      match cs with
      | [] => cases hc
      | d :: cs =>
        cases hc
        rw [identifier_cons] at h
        grind

theorem lexes_rule_identifier {m : PegMode} : Lexes identifier m (.rule .identifier) where
  takes h := ⟨(lexes_identifier.takes h).1, .rule (lexes_identifier.takes h).2⟩
  refuses h := .rule (lexes_identifier.refuses h)

theorem spells_colons {m : PegMode} {rest : List Char} : Spells m (lit "::") [':', ':'] rest :=
  .text

theorem refuses_colons {m : PegMode} {cs : List Char} (h : ∀ rest, cs ≠ ':' :: ':' :: rest) :
    Refuses m (lit "::") cs := .text h

/-- Segments behind a name, as many as there are. -/
theorem spells_segments (fuel : Nat) (cs : List Char) (hf : cs.length ≤ fuel) :
    cs = (segments fuel cs).1 ++ (segments fuel cs).2 ∧
      Spells .word (.again (.seq (lit "::") (.rule .identifier))) (segments fuel cs).1
        (segments fuel cs).2 := by
  induction fuel generalizing cs with
  | zero =>
    obtain rfl := List.eq_nil_of_length_eq_zero (Nat.le_zero.mp hf)
    exact ⟨rfl, .again_nil nofun (.seq_left (refuses_colons nofun))⟩
  | succ fuel ih =>
    unfold segments
    split
    · rename_i after
      split
      · rename_i text rest hi
        obtain ⟨rfl, hs⟩ := lexes_rule_identifier.takes hi
        simp only [List.length_cons, List.length_append] at hf
        obtain ⟨heq, hm⟩ := ih rest (by omega)
        generalize segments fuel rest = x at heq hm ⊢
        obtain ⟨more, rest'⟩ := x
        subst heq
        exact ⟨by simp, .again_cons (t := ':' :: ':' :: text) nofun
          (.seq (t := [':', ':']) nofun spells_colons hs) hm⟩
      · rename_i hi
        refine ⟨rfl, .again_nil nofun ?_⟩
        exact .seq_right (t := [':', ':']) nofun spells_colons (lexes_rule_identifier.refuses hi)
    · rename_i hno
      exact ⟨rfl, .again_nil nofun (.seq_left (refuses_colons fun rest h => hno rest h))⟩

theorem lexes_name : Lexes name .word RuleName.workerName.expression where
  takes {cs t rest} h := by
    simp only [name] at h
    split at h
    · rename_i hi
      cases h
      obtain ⟨rfl, hs⟩ := lexes_rule_identifier.takes hi
      obtain ⟨heq, hm⟩ := spells_segments _ _ (Nat.le_refl _)
      refine ⟨by rw [List.append_assoc, ← heq], .seq nofun ?_ (hm.star nofun)⟩
      rwa [← heq]
    · cases h
  refuses {cs} h := by
    simp only [name] at h
    split at h
    · cases h
    · rename_i hi
      exact .seq_left (lexes_rule_identifier.refuses hi)

/-- A key ends behind its colon; the word does not tell it. -/
theorem key_takes {cs t rest : List Char} (h : key cs = some (t, rest)) :
    identifier cs = some (t, ':' :: rest) ∧
      Spells .compact RuleName.argKey.expression (t ++ [':']) rest := by
  rw [key] at h
  split at h
  · cases h
  · rename_i text rest' hi hno
    cases h
    obtain ⟨rfl, hs⟩ := lexes_rule_identifier.takes hno
    have hone : Refuses .compact (lit ":") rest := .text (t := [':']) fun tail ht => hi tail ht
    have hcolon : Spells .compact (.seq (lit ":") (.no (lit ":"))) ([':'] ++ []) rest :=
      .seq nofun .text (.no hone)
    exact ⟨hno, .seq nofun hs hcolon⟩
  · cases h

theorem key_refuses {cs : List Char} (h : key cs = none) :
    Refuses .compact RuleName.argKey.expression cs := by
  rw [key] at h
  split at h
  · rename_i text rest hi
    obtain ⟨rfl, hs⟩ := lexes_rule_identifier.takes hi
    refine .seq_right nofun hs (.seq_right (t := [':']) nofun .text (.no (t := [':']) .text))
  · cases h
  · rename_i hcolon
    match hi : identifier cs with
    | none => exact .seq_left (lexes_rule_identifier.refuses hi)
    | some (t, rest) =>
      obtain ⟨rfl, hs⟩ := lexes_rule_identifier.takes hi
      refine .seq_right nofun hs (.seq_left (.text (t := [':']) fun tail ht => ?_))
      subst ht
      exact hcolon _ _ hi

/-! ### Strings and numbers -/

theorem class_quote {m : PegMode} : Class m (lit "\"") (· = '"') := .text

theorem class_backslash {m : PegMode} : Class m (lit "\\") (· = '\\') := .text

/-- One character within a string, or two with a backslash. -/
def quotedPart : Expression :=
  .alt (.seq (lit "\\") any) (.seq (.no (.alt (lit "\"") (lit "\\"))) any)

def isPlain (c : Char) : Bool := ! (decide (c = '"') || decide (c = '\\'))

theorem class_plain : Class .word (.seq (.no (.alt (lit "\"") (lit "\\"))) any) isPlain :=
  (class_quote.alt class_backslash).other nofun

/-- The inside of a string goes up to a quote or as far as it can. -/
theorem spells_quoted (cs : List Char) :
    ∃ t rest, cs = t ++ rest ∧ Spells .word (.again quotedPart) t rest ∧
      quoted cs = if rest.head? = some '"' then some (t, rest) else none := by
  have stop {cs : List Char} (h : Refuses .word (.seq (lit "\\") any) cs)
      (hp : ∀ c ∈ cs.head?, isPlain c = false) : Spells .word (.again quotedPart) [] cs :=
    .again_nil nofun (.alt h (class_plain.refuses hp))
  fun_induction quoted cs with
  | case1 =>
    exact ⟨[], [], rfl, stop (.seq_left (class_backslash.refuses (by simp))) (by simp), by simp⟩
  | case2 cs =>
    refine ⟨[], '"' :: cs, rfl, stop (.seq_left (class_backslash.refuses (by simp))) ?_, by simp⟩
    simp [isPlain]
  | case3 c cs ih =>
    obtain ⟨t, rest, rfl, hs, hq⟩ := ih
    refine ⟨'\\' :: c :: t, rest, rfl, .again_cons (t := ['\\', c]) nofun (.alt_left ?_) hs, ?_⟩
    · exact .seq (t := ['\\']) nofun .text (.one rfl)
    · rw [hq]
      split <;> rfl
  | case4 =>
    refine ⟨[], ['\\'], rfl, stop ?_ (by simp [isPlain]), by simp⟩
    exact .seq_right (t := ['\\']) nofun .text (.one (by simp))
  | case5 c cs hq hb hb' ih =>
    obtain ⟨t, rest, rfl, hs, heq⟩ := ih
    have hback : c ≠ '\\' := by
      rintro rfl
      cases h : t ++ rest with
      | nil => exact hb' rfl h
      | cons d ds => exact hb d ds rfl h
    refine ⟨c :: t, rest, rfl, .again_cons (t := [c]) nofun (.alt_right ?_ ?_) hs, ?_⟩
    · exact .seq_left (class_backslash.refuses (by simpa using hback))
    · exact class_plain.takes (by simpa [isPlain] using ⟨hq, hback⟩)
    · rw [heq]
      split <;> rfl

theorem lexes_string : Lexes string .compact RuleName.string.expression where
  takes {cs t rest} h := by
    unfold string at h
    split at h
    · rename_i cs
      split at h
      · rename_i text rest' hq
        cases h
        obtain ⟨text, rest, rfl, hs, heq⟩ := spells_quoted cs
        rw [heq] at hq
        split at hq
        · cases hq
          refine ⟨by simp, .seq (t := ['"']) nofun .text (.seq nofun (.rule (hs.star nofun)) .text)⟩
        · cases hq
      · cases h
    · cases h
  refuses {cs} h := by
    unfold string at h
    split at h
    · rename_i cs
      obtain ⟨text, rest, rfl, hs, heq⟩ := spells_quoted cs
      refine .seq_right (t := ['"']) nofun .text (.seq_right nofun (.rule (hs.star nofun)) ?_)
      refine .text (t := ['"']) fun rest' hr => ?_
      subst hr
      rw [heq] at h
      cases h
    · rename_i hno
      exact .seq_left (.text (t := ['"']) fun rest hr => hno rest hr)

theorem spells_optional {l : Lexeme} {m : PegMode} {e : Expression} (h : Lexes l m e)
    (cs : List Char) : cs = (optional l cs).1 ++ (optional l cs).2 ∧
      Spells m (.opt e) (optional l cs).1 (optional l cs).2 := by
  rw [optional]
  match hl : l cs with
  | some (t, rest) => exact ⟨(h.takes hl).1, (h.takes hl).2.opt⟩
  | none => exact ⟨rfl, .opt_nil (h.refuses hl)⟩

theorem class_digit : Class .word digit Char.isDigit := .one

theorem lexes_digits : Lexes digits .word (.plus digit) where
  takes {cs t rest} h := by
    match cs with
    | [] => cases h
    | c :: cs =>
      by_cases hc : c.isDigit = true
      · simp only [digits, run, List.takeWhile_cons_of_pos hc, List.dropWhile_cons_of_pos hc] at h
        cases h
        exact ⟨by simp, .seq (t := [c]) nofun (.one hc) (class_digit.star nofun cs)⟩
      · simp [digits, run, hc] at h
  refuses {cs} h := by
    refine .seq_left (class_digit.refuses fun c hc => Bool.eq_false_iff.mpr fun hd => ?_)
    obtain ⟨tail, rfl⟩ := List.head?_eq_some_iff.mp hc
    simp [digits, run, hd] at h

theorem lexes_fraction : Lexes fraction .word (.seq (lit ".") (.plus digit)) where
  takes {cs t rest} h := by
    unfold fraction at h
    split at h
    · obtain ⟨⟨text, rest'⟩, hd, he⟩ := Option.map_eq_some_iff.mp h
      cases he
      obtain ⟨rfl, hs⟩ := lexes_digits.takes hd
      exact ⟨rfl, .seq (t := ['.']) nofun .text hs⟩
    · cases h
  refuses {cs} h := by
    unfold fraction at h
    split at h
    · exact .seq_right (t := ['.']) nofun .text (lexes_digits.refuses (Option.map_eq_none_iff.mp h))
    · rename_i hno
      exact .seq_left (.text (t := ['.']) fun rest hr => hno rest hr)

theorem lexes_sign : Lexes sign .word (.alt (lit "+") (lit "-")) where
  takes {cs t rest} h := by
    unfold sign at h
    split at h
    · cases h
      exact ⟨rfl, .alt_left (.text (t := ['+']))⟩
    · cases h
      exact ⟨rfl, .alt_right (.text fun rest hr => by cases hr) (.text (t := ['-']))⟩
    · cases h
  refuses {cs} h := by
    unfold sign at h
    split at h
    · cases h
    · cases h
    · rename_i hplus hminus
      exact .alt (.text (t := ['+']) fun rest hr => hplus rest hr)
        (.text (t := ['-']) fun rest hr => hminus rest hr)

theorem class_exponentMark : Class .word exponentMark fun c => c = 'e' || c = 'E' := .one

theorem exponent_cons (c : Char) (cs : List Char) :
    exponent (c :: cs) = if c = 'e' ∨ c = 'E' then
      (digits (optional sign cs).2).map fun x => (c :: (optional sign cs).1 ++ x.1, x.2)
    else none := rfl

theorem lexes_exponent :
    Lexes exponent .word
      (.seq exponentMark (.seq (.opt (.alt (lit "+") (lit "-"))) (.plus digit))) where
  takes {cs t rest} h := by
    match cs with
    | [] => cases h
    | c :: cs =>
      rw [exponent_cons] at h
      split at h
      · rename_i hc
        obtain ⟨⟨text, rest'⟩, hd, he⟩ := Option.map_eq_some_iff.mp h
        cases he
        obtain ⟨hmark, hs⟩ := spells_optional lexes_sign cs
        obtain ⟨hdigits, hs'⟩ := lexes_digits.takes hd
        rw [hdigits] at hmark hs
        refine ⟨by rw [List.append_assoc, List.cons_append, ← hmark], ?_⟩
        exact .seq (t := [c]) nofun (class_exponentMark.takes (by simpa using hc))
          (.seq nofun hs hs')
      · cases h
  refuses {cs} h := by
    match cs with
    | [] => exact .seq_left (class_exponentMark.refuses (by simp))
    | c :: cs =>
      rw [exponent_cons] at h
      split at h
      · rename_i hc
        obtain ⟨hmark, hs⟩ := spells_optional lexes_sign cs
        have hd := lexes_digits.refuses (Option.map_eq_none_iff.mp h)
        refine .seq_right (t := [c]) nofun (class_exponentMark.takes (by simpa using hc)) ?_
        rw [hmark]
        exact .seq_right nofun hs hd
      · rename_i hc
        exact .seq_left (class_exponentMark.refuses (by simpa using hc))

/-- The text in front of a number's digits, and the rest. -/
def minus (cs : List Char) : List Char × List Char :=
  match cs with
  | '-' :: body => (['-'], body)
  | _ => ([], cs)

theorem spells_minus (cs : List Char) :
    cs = (minus cs).1 ++ (minus cs).2 ∧
      Spells .word (.opt (lit "-")) (minus cs).1 (minus cs).2 := by
  unfold minus
  split
  · exact ⟨rfl, .opt (.text (t := ['-']))⟩
  · rename_i hno
    exact ⟨rfl, .opt_nil (.text (t := ['-']) fun rest hr => hno rest hr)⟩

theorem number_eq (cs : List Char) :
    number cs = (digits (minus cs).2).map fun x =>
      ((minus cs).1 ++ x.1 ++ (optional fraction x.2).1 ++
        (optional exponent (optional fraction x.2).2).1,
        (optional exponent (optional fraction x.2).2).2) := by
  unfold number
  split
  rename_i sign body heq
  have hminus : minus cs = (sign, body) := heq
  rw [hminus]
  cases digits body <;> rfl

theorem lexes_number : Lexes number .word RuleName.number.expression where
  takes {cs t rest} h := by
    rw [number_eq] at h
    obtain ⟨⟨text, rest'⟩, hd, he⟩ := Option.map_eq_some_iff.mp h
    cases he
    obtain ⟨hminus, hs⟩ := spells_minus cs
    obtain ⟨hdigits, hs'⟩ := lexes_digits.takes hd
    obtain ⟨hfrac, hf⟩ := spells_optional lexes_fraction rest'
    obtain ⟨hexp, hx⟩ := spells_optional lexes_exponent (optional fraction rest').2
    rw [hexp] at hfrac hf
    rw [hfrac] at hdigits hs'
    rw [hdigits] at hminus hs
    refine ⟨by simpa only [List.append_assoc] using hminus, ?_⟩
    simp only [List.append_assoc]
    refine .seq nofun (by simpa only [List.append_assoc] using hs)
      (.seq nofun ?_ (.seq nofun hf hx))
    simpa only [List.append_assoc] using hs'
  refuses {cs} h := by
    rw [number_eq] at h
    obtain ⟨hminus, hs⟩ := spells_minus cs
    rw [hminus]
    exact .seq_right nofun hs (.seq_left (lexes_digits.refuses (Option.map_eq_none_iff.mp h)))

end Syntax

end Workflow.Surface
