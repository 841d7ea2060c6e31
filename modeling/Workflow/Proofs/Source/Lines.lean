import Mathlib.Data.List.TakeWhile
import Mathlib.Data.Prod.Lex
import Workflow.Proofs.Surface.Found
import Workflow.Source.Lines

/-!
The line and column of an offset between two characters of a text: the newlines before it, and the
characters since the last of them. A later offset has a later place, by the line first and then by
the column, so no two of these offsets share one.
-/

namespace Workflow

/-- The characters since the last newline of a text. -/
def Text.column (before : List Char) : Nat := (before.reverse.takeWhile (· ≠ '\n')).length

/-- The offsets between two characters of a text, and those of its two ends. -/
def Text.boundaries (text : List Char) : Set Nat :=
  {offset | ∃ before after, text = before ++ after ∧ offset = utf8Length before}

namespace Lines

open Text (utf8Length column boundaries)

theorem column_newline (before : List Char) : column ('\n' :: before) = column before := by
  have hend : ['\n'].takeWhile (fun c => decide (c ≠ '\n')) = [] := rfl
  rw [column, column, List.reverse_cons, List.takeWhile_append]
  split
  · rw [hend, List.append_nil]
    rename_i hall
    rw [(List.takeWhile_prefix _).eq_of_length hall]
  · rfl

theorem column_append {before more : List Char} (h : '\n' ∉ more) :
    column (before ++ more) = column before + more.length := by
  have hplain : ∀ c ∈ more.reverse, decide (c ≠ '\n') = true := by
    intro c hc
    refine decide_eq_true ?_
    rintro rfl
    exact h (List.mem_reverse.mp hc)
  rw [column, column, List.reverse_append, List.takeWhile_append_of_pos hplain,
    List.length_append, List.length_reverse, Nat.add_comm]

theorem column_of_not_mem {line : List Char} (h : '\n' ∉ line) : column line = line.length := by
  have hline : column ([] ++ line) = 0 + line.length := column_append h
  rwa [List.nil_append, Nat.zero_add] at hline

theorem column_cons {c : Char} {before : List Char} (hc : c ≠ '\n') :
    column (c :: before) =
      if before.count '\n' = 0 then column before + 1 else column before := by
  by_cases hnone : before.count '\n' = 0
  · have hbefore : '\n' ∉ before := List.count_eq_zero.mp hnone
    have hplain : '\n' ∉ c :: before := List.not_mem_cons_of_ne_of_not_mem hc.symm hbefore
    rw [if_pos hnone, column_of_not_mem hplain, column_of_not_mem hbefore, List.length_cons]
  · have hbroken : (before.reverse.takeWhile fun x => decide (x ≠ '\n')).length ≠
        before.reverse.length := by
      intro hall
      refine hnone (List.count_eq_zero.mpr fun hin => ?_)
      have hplain := List.takeWhile_eq_self_iff.mp ((List.takeWhile_prefix _).eq_of_length hall)
      simpa using hplain '\n' (List.mem_reverse.mpr hin)
    rw [column, column, List.reverse_cons, List.takeWhile_append, if_neg hbroken, if_neg hnone]

theorem charsIn_append (read left : List Char) :
    charsIn (utf8Length read) (read ++ left) = some read.length := by
  induction read with
  | nil => cases left <;> rfl
  | cons c read ih =>
    have hsize : 0 < c.utf8Size := c.utf8Size_pos
    rw [Text.utf8Length_cons, List.cons_append, charsIn, if_neg (by omega), if_pos (by omega),
      Nat.add_sub_cancel_left, ih, Option.map_some, List.length_cons]

/-- An offset lies within a line, behind so many lines and so many characters. -/
def Reaches (lines : Lines) (offset line col : Nat) : Prop :=
  ∃ earlier start read left later, lines = earlier ++ ⟨start, read ++ left⟩ :: later ∧
    earlier.length = line ∧ read.length = col ∧ start + utf8Length read = offset ∧
    (∀ l ∈ earlier, l.start ≤ offset) ∧ ∀ l ∈ later, offset < l.start

theorem Reaches.lineCol {lines : Lines} {offset line col : Nat}
    (h : lines.Reaches offset line col) : lines.lineCol offset = (line, col) := by
  obtain ⟨earlier, start, read, left, later, rfl, rfl, rfl, rfl, hearlier, hlater⟩ := h
  have hfirst : ∀ l ∈ earlier, decide (l.start ≤ start + utf8Length read) = true :=
    fun l hl => decide_eq_true (hearlier l hl)
  have hlast : later.takeWhile (fun l => decide (l.start ≤ start + utf8Length read)) = [] := by
    cases later with
    | nil => rfl
    | cons l later =>
      have hl := hlater l List.mem_cons_self
      exact List.takeWhile_cons_of_neg (by simpa using hl)
  have hbefore : (earlier ++ ⟨start, read ++ left⟩ :: later).takeWhile
      (fun l => decide (l.start ≤ start + utf8Length read)) =
        earlier ++ [⟨start, read ++ left⟩] := by
    rw [List.takeWhile_append_of_pos hfirst, List.takeWhile_cons_of_pos (by simp), hlast]
  rw [Lines.lineCol, hbefore]
  simp [charsIn_append]

theorem cut_eq_cons (pos : Nat) (cs : List Char) :
    ∃ chars later, cut pos cs = ⟨pos, chars⟩ :: later ∧ ∀ l ∈ later, pos < l.start := by
  induction cs generalizing pos with
  | nil => exact ⟨[], [], rfl, nofun⟩
  | cons c cs ih =>
    obtain ⟨chars, later, hcut, hlater⟩ := ih (pos + c.utf8Size)
    have hsize : 0 < c.utf8Size := c.utf8Size_pos
    have hfar : ∀ l ∈ later, pos < l.start := fun l hl => by
      have := hlater l hl
      omega
    rw [cut]
    by_cases hc : c = '\n'
    · refine ⟨[c], cut (pos + c.utf8Size) cs, by rw [if_pos hc], fun l hl => ?_⟩
      rw [hcut] at hl
      rcases List.mem_cons.mp hl with rfl | hl
      · exact Nat.lt_add_of_pos_right hsize
      · exact hfar l hl
    · refine ⟨c :: chars, later, ?_, hfar⟩
      simp only [if_neg hc, hcut]

theorem reaches_cut (pos : Nat) (before after : List Char) :
    (cut pos (before ++ after)).Reaches (pos + utf8Length before) (before.count '\n')
      (column before) := by
  induction before generalizing pos with
  | nil =>
    obtain ⟨chars, later, hcut, hlater⟩ := cut_eq_cons pos after
    exact ⟨[], pos, [], chars, later, hcut, rfl, rfl, rfl, nofun, hlater⟩
  | cons c before ih =>
    obtain ⟨earlier, start, read, left, later, hcut, hline, hcol, hoffset, hearlier, hlater⟩ :=
      ih (pos + c.utf8Size)
    rw [List.cons_append, cut, Text.utf8Length_cons, ← Nat.add_assoc]
    by_cases hc : c = '\n'
    · subst hc
      rw [if_pos rfl, hcut, column_newline, List.count_cons_self]
      refine ⟨⟨pos, ['\n']⟩ :: earlier, start, read, left, later, rfl, ?_, hcol, hoffset, ?_,
        hlater⟩
      · rw [List.length_cons, hline]
      · refine List.forall_mem_cons.mpr ⟨?_, hearlier⟩
        show pos ≤ _
        omega
    · rw [if_neg hc, hcut, column_cons hc, List.count_cons_of_ne hc]
      cases earlier with
      | nil =>
        -- The offset is in the first line, which begins with the new character.
        obtain ⟨chars, later', hfirst, -⟩ := cut_eq_cons (pos + c.utf8Size) (before ++ after)
        have hstart : start = pos + c.utf8Size := by
          have hsame := hcut.symm.trans hfirst
          simp only [List.nil_append, List.cons.injEq, Line.mk.injEq] at hsame
          exact hsame.1.1
        rw [if_pos (show before.count '\n' = 0 from hline.symm)]
        refine ⟨[], pos, c :: read, left, later, rfl, hline, ?_, ?_, nofun, hlater⟩
        · rw [List.length_cons, hcol]
        · rw [Text.utf8Length_cons, ← hoffset, hstart, Nat.add_assoc]
      | cons l earlier =>
        obtain ⟨hl, hearlier⟩ := List.forall_mem_cons.mp hearlier
        rw [if_neg (by rw [← hline]; exact Nat.succ_ne_zero _)]
        refine ⟨⟨pos, c :: l.chars⟩ :: earlier, start, read, left, later, rfl, hline, hcol, hoffset,
          ?_, hlater⟩
        refine List.forall_mem_cons.mpr ⟨?_, hearlier⟩
        show pos ≤ _
        omega

/-- The line and column of the offset between two parts of a text. -/
theorem lineCol_ofText (before after : List Char) :
    (ofText (before ++ after)).lineCol (utf8Length before) =
      (before.count '\n', column before) := by
  have h := reaches_cut 0 before after
  rw [Nat.zero_add] at h
  exact h.lineCol

/-! ### The order of places -/

/-- Each line starts behind the one before it, so the lines that start at or before an offset are
the first ones, and any search for the last of these finds the same line. -/
theorem cut_increasing (pos : Nat) (cs : List Char) :
    (cut pos cs).Pairwise fun l k => l.start < k.start := by
  induction cs generalizing pos with
  | nil => exact List.pairwise_singleton _ _
  | cons c cs ih =>
    obtain ⟨chars, later, hcut, hlater⟩ := cut_eq_cons pos (c :: cs)
    have hnext := ih (pos + c.utf8Size)
    rw [hcut]
    refine List.pairwise_cons.mpr ⟨hlater, ?_⟩
    rw [cut] at hcut
    by_cases hc : c = '\n'
    · rw [if_pos hc] at hcut
      obtain ⟨-, rfl⟩ := List.cons.inj hcut
      exact hnext
    · obtain ⟨chars', later', hcut', -⟩ := cut_eq_cons (pos + c.utf8Size) cs
      simp only [if_neg hc, hcut'] at hcut
      obtain ⟨-, rfl⟩ := List.cons.inj hcut
      rw [hcut'] at hnext
      exact hnext.of_cons

/-- Further characters begin a new line, or they lengthen the last one. -/
theorem place_lt_append (before : List Char) {more : List Char} (h : more ≠ []) :
    toLex (before.count '\n', column before) <
      toLex ((before ++ more).count '\n', column (before ++ more)) := by
  rw [Prod.Lex.toLex_lt_toLex, List.count_append]
  by_cases hline : '\n' ∈ more
  · have hcount : 0 < more.count '\n' := List.count_pos_iff.mpr hline
    exact .inl (Nat.lt_add_of_pos_right hcount)
  · have hmore : 0 < more.length := List.length_pos_iff.mpr h
    refine .inr ⟨?_, ?_⟩
    · rw [List.count_eq_zero.mpr hline, Nat.add_zero]
    · show column before < column (before ++ more)
      rw [column_append hline]
      exact Nat.lt_add_of_pos_right hmore

/-- Before the later one of two offsets stands what stands before the other, and more. -/
theorem exists_append_of_lt {a a' b b' : List Char} (h : a ++ a' = b ++ b')
    (hlt : utf8Length a < utf8Length b) : ∃ more, more ≠ [] ∧ b = a ++ more := by
  obtain ⟨more, rfl, -⟩ | ⟨more, rfl, -⟩ := List.append_eq_append_iff.mp h
  · refine ⟨more, ?_, rfl⟩
    rintro rfl
    simp at hlt
  · rw [Text.utf8Length_append] at hlt
    omega

/-- The place of every offset between characters, both ends of the text included. The search for
its line has one answer, and places are in the order of the offsets. -/
theorem lineCol_boundaries (text : List Char) :
    (ofText text).Pairwise (fun l k => l.start < k.start) ∧
    (∀ before after, text = before ++ after →
      (ofText text).lineCol (utf8Length before) = (before.count '\n', column before)) ∧
    StrictMonoOn (fun offset => toLex ((ofText text).lineCol offset)) (boundaries text) ∧
    Set.InjOn (ofText text).lineCol (boundaries text) := by
  have hplace : ∀ before after, text = before ++ after →
      (ofText text).lineCol (utf8Length before) = (before.count '\n', column before) := by
    rintro before after rfl
    exact lineCol_ofText before after
  have hmono : StrictMonoOn (fun offset => toLex ((ofText text).lineCol offset))
      (boundaries text) := by
    rintro _ ⟨a, a', ha, rfl⟩ _ ⟨b, b', hb, rfl⟩ hlt
    obtain ⟨more, hmore, hab⟩ := exists_append_of_lt (ha.symm.trans hb) hlt
    show toLex _ < toLex _
    rw [hplace a a' ha, hplace b b' hb, hab]
    exact place_lt_append a hmore
  exact ⟨cut_increasing 0 text, hplace, hmono, hmono.injOn⟩

/-- Letters of two and of three bytes, with offsets before and behind a newline and at the end. -/
theorem snowman_boundaries :
    (ofText "é\n☃x".toList).lineCol 6 = (1, 1) ∧
    toLex ((ofText "é\n☃x".toList).lineCol 2) < toLex ((ofText "é\n☃x".toList).lineCol 3) ∧
    (ofText "é\n☃x".toList).lineCol 6 ≠ (ofText "é\n☃x".toList).lineCol 7 := by
  obtain ⟨-, hplace, hmono, hinj⟩ := lineCol_boundaries "é\n☃x".toList
  have h2 : 2 ∈ boundaries "é\n☃x".toList := ⟨['é'], "\n☃x".toList, by decide, by decide⟩
  have h3 : 3 ∈ boundaries "é\n☃x".toList := ⟨"é\n".toList, "☃x".toList, by decide, by decide⟩
  have h6 : 6 ∈ boundaries "é\n☃x".toList := ⟨"é\n☃".toList, ['x'], by decide, by decide⟩
  have h7 : 7 ∈ boundaries "é\n☃x".toList := ⟨"é\n☃x".toList, [], by decide, by decide⟩
  refine ⟨hplace "é\n☃".toList ['x'] (by decide), hmono h2 h3 (by decide), fun h => ?_⟩
  exact absurd (hinj h6 h7 h) (by decide)

end Lines

end Workflow
