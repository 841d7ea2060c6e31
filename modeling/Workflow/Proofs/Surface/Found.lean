import Workflow.Surface.Grammar

/-!
What a rule matches, apart from how far its refusals reach.
-/

namespace Workflow

namespace Text

@[simp] theorem utf8Length_nil : utf8Length [] = 0 := rfl

@[simp] theorem utf8Length_cons (c : Char) (cs : List Char) :
    utf8Length (c :: cs) = c.utf8Size + utf8Length cs := rfl

@[simp] theorem utf8Length_append (cs ds : List Char) :
    utf8Length (cs ++ ds) = utf8Length cs + utf8Length ds := by
  induction cs with
  | nil => simp
  | cons c cs ih => simp [ih, Nat.add_assoc]

end Text

namespace Surface

/-! ### Cursors -/

namespace Cursor

theorem moveTo_eq {c : Cursor} {w rest : List Char} (h : c.rest = w ++ rest) :
    c.moveTo rest = ⟨c.offset + Text.utf8Length w, rest⟩ := by
  simp [moveTo, h]

@[simp] theorem moveTo_rest (c : Cursor) (rest : List Char) : (c.moveTo rest).rest = rest := rfl

theorem moveTo_self (c : Cursor) : c.moveTo c.rest = c := by
  rw [moveTo_eq (w := []) rfl]
  rfl

/-- The cursor behind blanks and comments. -/
def skipped (c : Cursor) : Cursor := c.moveTo (skipBlanks c.rest)

@[simp] theorem skipped_rest (c : Cursor) : c.skipped.rest = skipBlanks c.rest := rfl

end Cursor

mutual

theorem skipBlanks_idem : (cs : List Char) → skipBlanks (skipBlanks cs) = skipBlanks cs
  | [] => rfl
  | c :: cs => by
    rw [skipBlanks]
    split
    · exact skipBlanks_idem cs
    · split
      · exact skipBlanks_skipComment cs
      · rename_i hb hh
        rw [skipBlanks, if_neg hb, if_neg hh]

theorem skipBlanks_skipComment :
    (cs : List Char) → skipBlanks (skipBlanks.skipComment cs) = skipBlanks.skipComment cs
  | [] => rfl
  | c :: cs => by
    rw [skipBlanks.skipComment]
    split
    · exact skipBlanks_idem cs
    · exact skipBlanks_skipComment cs

end

mutual

theorem length_skipBlanks_le : (cs : List Char) → (skipBlanks cs).length ≤ cs.length
  | [] => Nat.le_refl _
  | c :: cs => by
    rw [skipBlanks]
    split
    · exact Nat.le_succ_of_le (length_skipBlanks_le cs)
    · split
      · exact Nat.le_succ_of_le (length_skipComment_le cs)
      · exact Nat.le_refl _

theorem length_skipComment_le :
    (cs : List Char) → (skipBlanks.skipComment cs).length ≤ cs.length
  | [] => Nat.le_refl _
  | c :: cs => by
    rw [skipBlanks.skipComment]
    split
    · exact Nat.le_succ_of_le (length_skipBlanks_le cs)
    · exact Nat.le_succ_of_le (length_skipComment_le cs)

end

theorem Cursor.length_skipped_le (c : Cursor) : c.skipped.rest.length ≤ c.rest.length :=
  length_skipBlanks_le c.rest

@[simp] theorem Cursor.skipped_skipped (c : Cursor) : c.skipped.skipped = c.skipped := by
  rw [skipped, skipped_rest, skipBlanks_idem]
  exact moveTo_self _

/-! ### Rules -/

namespace Rule

variable {α β : Type} {c : Cursor}

@[simp] theorem found_pure (a : α) : ((pure a : Rule α) c).found = some (a, c) := rfl

@[simp] theorem found_bind (p : Rule α) (f : α → Rule β) :
    ((p >>= f) c).found = (p c).found.bind fun x => (f x.1 x.2).found := by
  show (andThen p f c).found = _
  rw [andThen]
  rcases (p c).found with _ | ⟨a, c'⟩ <;> rfl

@[simp] theorem found_orElse (p q : Rule α) :
    (orElse p q c).found = (p c).found.or (q c).found := by
  rw [orElse]
  rcases h : (p c).found with _ | ⟨a, c'⟩
  · rfl
  · exact h

@[simp] theorem found_named (p : Rule α) : (named p c).found = (p c).found := by
  rw [named]
  rcases h : (p c).found with _ | ⟨a, c'⟩
  · rfl
  · exact h

@[simp] theorem found_optional (p : Rule α) :
    (optional p c).found = ((p c).found.map fun x => (some x.1, x.2)).or (some (none, c)) := by
  rw [optional, found_orElse]
  show (((p >>= fun a => pure (some a)) c).found).or _ = _
  rw [found_bind]
  cases (p c).found <;> rfl

@[simp] theorem found_refuse : (refuse c : Trial α).found = none := rfl

@[simp] theorem found_skip : (skip c).found = some ((), c.skipped) := rfl

@[simp] theorem found_offset : (offset c).found = some (c.offset, c) := rfl

theorem found_char {x : Char} {rest : List Char} (h : c.rest = x :: rest) :
    (char x c).found = some ((), ⟨c.offset + x.utf8Size, rest⟩) := by
  simp [char, h]

theorem found_char_none {x : Char} (h : ∀ rest, c.rest ≠ x :: rest) :
    (char x c).found = none := by
  unfold char
  split
  · rename_i y rest hr
    rw [if_neg fun hy => h rest (by rw [hr, hy])]
  · rfl

@[simp] theorem found_lexeme (l : Lexeme) :
    (lexeme l c).found = (l c.rest).map fun x => (x.1, c.moveTo x.2) := by
  rw [lexeme]
  cases l c.rest <;> rfl

theorem found_star_nil {p : Rule α} (h : (p c.skipped).found = none) :
    (star p c).found = some ([], c) := by
  have hs : (andThen skip (fun _ => p) c).found = none := (found_bind skip fun _ => p).trans h
  rw [star]
  simp only [hs]

/-- A further round of a repetition, when it takes a character at least. -/
theorem found_star_cons {p : Rule α} {a : α} {c' : Cursor}
    (h : (p c.skipped).found = some (a, c')) (hlt : c'.rest.length < c.rest.length) :
    (star p c).found = (star p c').found.map fun x => (a :: x.1, x.2) := by
  have hs : (andThen skip (fun _ => p) c).found = some (a, c') :=
    (found_bind skip fun _ => p).trans h
  rw [star]
  simp only [hs, if_pos hlt]

end Rule

@[simp] theorem found_located {α β : Type} (p : Rule α) (f : α → Extent → β) {c : Cursor} :
    (located p f c).found =
      (p c).found.map fun x => (f x.1 ⟨c.offset, x.2.offset⟩, x.2) := by
  simp only [located, Rule.found_bind, Rule.found_offset, Option.bind_some, Rule.found_pure]
  cases (p c).found <;> rfl

end Surface

end Workflow
