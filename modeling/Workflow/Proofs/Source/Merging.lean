import Workflow.Proofs.Surface.Spans

/-!
Merging spans. A merged span is the smallest one that covers both. Of spans that start or stop
together the first gives the line and column, so merging is the same in every grouping; it commutes
just where such spans agree on them, as the spans of one text do, and there it is the same in every
order too.
-/

namespace Workflow

namespace Span

variable {place : Nat → Nat × Nat} {s t c : Span}

/-! ### Choosing an end -/

theorem earlier_assoc {α : Type} (a b c : Nat) (x y z : α) :
    (if min a b ≤ c then if a ≤ b then x else y else z) =
      if a ≤ min b c then x else if b ≤ c then y else z := by
  split_ifs <;> first | rfl | omega

theorem later_assoc {α : Type} (a b c : Nat) (x y z : α) :
    (if c ≤ max a b then if b ≤ a then x else y else z) =
      if max b c ≤ a then x else if c ≤ b then y else z := by
  split_ifs <;> first | rfl | omega

theorem earlier_comm_iff {α : Type} (a b : Nat) (x y : α) :
    (if a ≤ b then x else y) = (if b ≤ a then y else x) ↔ (a = b → x = y) := by
  rcases Nat.lt_trichotomy a b with h | rfl | h
  · simp [h.le, h.not_ge, h.ne]
  · simp
  · simp [h.le, h.not_ge, h.ne']

theorem merge_assoc (s t u : Span) : (s.merge t).merge u = s.merge (t.merge u) := by
  unfold merge
  congr 1
  · exact Nat.min_assoc _ _ _
  · exact Nat.max_assoc _ _ _
  · exact earlier_assoc _ _ _ _ _ _
  · exact earlier_assoc _ _ _ _ _ _
  · exact later_assoc _ _ _ _ _ _
  · exact later_assoc _ _ _ _ _ _

instance : Std.Associative merge := ⟨merge_assoc⟩

theorem merge_self (s : Span) : s.merge s = s := by
  simp [merge]

/-- Merging commutes just where spans that start or stop together do so on one line and column. -/
theorem merge_comm_iff : s.merge t = t.merge s ↔
    (s.start = t.start → s.startLine = t.startLine ∧ s.startCol = t.startCol) ∧
    (s.stop = t.stop → s.stopLine = t.stopLine ∧ s.stopCol = t.stopCol) := by
  simp only [merge, Span.mk.injEq, Nat.min_comm, Nat.max_comm, earlier_comm_iff]
  grind

/-! ### The smallest cover -/

/-- The smallest of the spans that cover all of a collection. -/
structure Encloses (u : Span) (all : List Span) : Prop where
  covers : ∀ s ∈ all, u.Covers s
  least : ∀ c : Span, (∀ s ∈ all, c.Covers s) → c.Covers u

theorem merge_covers_left (s t : Span) : (s.merge t).Covers s :=
  ⟨Nat.min_le_left _ _, Nat.le_max_left _ _⟩

theorem merge_covers_right (s t : Span) : (s.merge t).Covers t :=
  ⟨Nat.min_le_right _ _, Nat.le_max_right _ _⟩

theorem Covers.merge (hs : c.Covers s) (ht : c.Covers t) : c.Covers (s.merge t) :=
  ⟨Nat.le_min.mpr ⟨hs.1, ht.1⟩, Nat.max_le.mpr ⟨hs.2, ht.2⟩⟩

theorem encloses_singleton (s : Span) : s.Encloses [s] where
  covers := List.forall_mem_singleton.mpr (.refl s)
  least _ hc := hc s (List.mem_singleton_self s)

theorem Encloses.merge {ss ts : List Span} (hs : s.Encloses ss) (ht : t.Encloses ts) :
    (s.merge t).Encloses (ss ++ ts) where
  covers k hk := by
    rcases List.mem_append.mp hk with hk | hk
    · exact (merge_covers_left s t).trans (hs.covers k hk)
    · exact (merge_covers_right s t).trans (ht.covers k hk)
  least c hc := by
    obtain ⟨hss, hts⟩ := List.forall_mem_append.mp hc
    exact (hs.least c hss).merge (ht.least c hts)

theorem Encloses.congr {all all' : List Span} (hs : s.Encloses all)
    (h : ∀ k, k ∈ all ↔ k ∈ all') : s.Encloses all' where
  covers k hk := hs.covers k ((h k).mpr hk)
  least c hc := hs.least c fun k hk => hc k ((h k).mp hk)

/-! ### Lines and columns by offset -/

/-- The line and column of either end are those that its offset has. -/
structure Placed (place : Nat → Nat × Nat) (s : Span) : Prop where
  first : (s.startLine, s.startCol) = place s.start
  last : (s.stopLine, s.stopCol) = place s.stop

instance (place : Nat → Nat × Nat) (s : Span) : Decidable (s.Placed place) :=
  decidable_of_iff
    ((s.startLine, s.startCol) = place s.start ∧ (s.stopLine, s.stopCol) = place s.stop)
    ⟨fun h => ⟨h.1, h.2⟩, fun h => ⟨h.first, h.last⟩⟩

theorem Placed.merge (hs : s.Placed place) (ht : t.Placed place) : (s.merge t).Placed place := by
  constructor
  case first =>
    by_cases h : s.start ≤ t.start
    · simpa only [Span.merge, if_pos h, Nat.min_eq_left h] using hs.first
    · simpa only [Span.merge, if_neg h, Nat.min_eq_right (Nat.le_of_not_le h)] using ht.first
  case last =>
    by_cases h : t.stop ≤ s.stop
    · simpa only [Span.merge, if_pos h, Nat.max_eq_left h] using hs.last
    · simpa only [Span.merge, if_neg h, Nat.max_eq_right (Nat.le_of_not_le h)] using ht.last

theorem Placed.first_eq (hs : s.Placed place) (ht : t.Placed place) (h : s.start = t.start) :
    s.startLine = t.startLine ∧ s.startCol = t.startCol :=
  Prod.mk.inj (hs.first.trans ((congrArg place h).trans ht.first.symm))

theorem Placed.last_eq (hs : s.Placed place) (ht : t.Placed place) (h : s.stop = t.stop) :
    s.stopLine = t.stopLine ∧ s.stopCol = t.stopCol :=
  Prod.mk.inj (hs.last.trans ((congrArg place h).trans ht.last.symm))

theorem Placed.merge_comm (hs : s.Placed place) (ht : t.Placed place) : s.merge t = t.merge s :=
  merge_comm_iff.mpr ⟨hs.first_eq ht, hs.last_eq ht⟩

/-- Offsets and the lines and columns that go with them make out a span. -/
theorem Placed.eq_of_covers (hs : s.Placed place) (ht : t.Placed place) (hst : s.Covers t)
    (hts : t.Covers s) : s = t := by
  have hstart : s.start = t.start := Nat.le_antisymm hst.1 hts.1
  have hstop : s.stop = t.stop := Nat.le_antisymm hts.2 hst.2
  obtain ⟨hline, hcol⟩ := hs.first_eq ht hstart
  obtain ⟨hline', hcol'⟩ := hs.last_eq ht hstop
  cases s
  cases t
  simp_all

theorem Placed.eq_of_encloses {all : List Span} (hs : s.Placed place) (ht : t.Placed place)
    (hall : s.Encloses all) (hall' : t.Encloses all) : s = t :=
  hs.eq_of_covers ht (hall'.least s hall.covers) (hall.least t hall'.covers)

end Span

/-- An order and grouping in which spans are merged two by two. -/
inductive Merging where
  | one (s : Span)
  | both (m n : Merging)

namespace Merging

variable {place : Nat → Nat × Nat}

def spans : Merging → List Span
  | one s => [s]
  | both m n => m.spans ++ n.spans

def merged : Merging → Span
  | one s => s
  | both m n => m.merged.merge n.merged

theorem spans_ne_nil (m : Merging) : m.spans ≠ [] := by
  induction m with
  | one s => exact List.cons_ne_nil _ _
  | both m n hm => exact List.append_ne_nil_of_left_ne_nil hm _

/-- In whatever grouping, the spans are merged as from the first to the last. -/
theorem merged_eq_foldl (m : Merging) (s : Span) (rest : List Span) (h : m.spans = s :: rest) :
    m.merged = rest.foldl Span.merge s := by
  induction m generalizing s rest with
  | one k =>
    obtain ⟨rfl, rfl⟩ := List.cons.inj h
    rfl
  | both m n hm hn =>
    obtain ⟨k, ks, hk⟩ := List.exists_cons_of_ne_nil m.spans_ne_nil
    obtain ⟨l, ls, hl⟩ := List.exists_cons_of_ne_nil n.spans_ne_nil
    rw [spans, hk, hl, List.cons_append] at h
    obtain ⟨rfl, rfl⟩ := List.cons.inj h
    rw [merged, hm k ks hk, hn l ls hl, List.foldl_append, List.foldl_cons, List.foldl_assoc]

theorem encloses (m : Merging) : m.merged.Encloses m.spans := by
  induction m with
  | one s => exact Span.encloses_singleton s
  | both m n hm hn => exact hm.merge hn

theorem placed (m : Merging) (h : ∀ s ∈ m.spans, s.Placed place) : m.merged.Placed place := by
  induction m with
  | one s => exact h s (List.mem_singleton_self s)
  | both m n hm hn =>
    obtain ⟨hleft, hright⟩ := List.forall_mem_append.mp h
    exact (hm hleft).merge (hn hright)

/-- Some order and grouping there is for every collection that is not empty. -/
theorem exists_spans_eq (s : Span) (rest : List Span) : ∃ m : Merging, m.spans = s :: rest := by
  induction rest generalizing s with
  | nil => exact ⟨one s, rfl⟩
  | cons t rest ih =>
    obtain ⟨m, hm⟩ := ih t
    exact ⟨both (one s) m, congrArg (s :: ·) hm⟩

end Merging

/-- The line and column of an offset in a text are what the lines of the text give for it. -/
theorem Text.Marks.lineCol {text : List Char} {offset line col : Nat}
    (h : Text.Marks text offset line col) : (Lines.ofText text).lineCol offset = (line, col) := by
  obtain ⟨before, after, rfl, rfl, rfl, rfl⟩ := h
  exact Lines.lineCol_ofText before after

namespace Span

theorem On.placed {text : List Char} {s : Span} (h : s.On text) :
    s.Placed (Lines.ofText text).lineCol :=
  ⟨h.first.lineCol.symm, h.last.lineCol.symm⟩

/-- Merging is associative and idempotent on all spans. Where offsets have one line and column, as
in a text, it commutes too, and in every order and grouping it gives the smallest cover. -/
theorem merge_laws :
    (∀ s t u : Span, (s.merge t).merge u = s.merge (t.merge u)) ∧
    (∀ (m : Merging) (s : Span) (rest : List Span), m.spans = s :: rest →
      m.merged = rest.foldl merge s) ∧
    (∀ s : Span, s.merge s = s) ∧
    (∀ place : Nat → Nat × Nat,
      (∀ s t : Span, s.Placed place → t.Placed place → s.merge t = t.merge s) ∧
      ∀ all : List Span, all ≠ [] → (∀ s ∈ all, s.Placed place) →
        ∃ u : Span, u.Encloses all ∧ u.Placed place ∧
          ∀ m : Merging, (∀ s, s ∈ m.spans ↔ s ∈ all) → m.merged = u) ∧
    ∀ (text : List Char) (s : Span), s.On text → s.Placed (Lines.ofText text).lineCol := by
  refine ⟨merge_assoc, Merging.merged_eq_foldl, merge_self, fun place => ⟨fun s t => Placed.merge_comm, ?_⟩,
    fun text s => On.placed⟩
  intro all hall hplaced
  -- One way to merge them all gives the span, and all others give the same.
  obtain ⟨s, rest, rfl⟩ := List.exists_cons_of_ne_nil hall
  obtain ⟨m, hm⟩ := Merging.exists_spans_eq s rest
  have hcover : m.merged.Encloses (s :: rest) := hm ▸ m.encloses
  have hplace : m.merged.Placed place := m.placed (hm ▸ hplaced)
  refine ⟨m.merged, hcover, hplace, fun n hn => ?_⟩
  have hplace' : n.merged.Placed place := n.placed fun k hk => hplaced k ((hn k).mp hk)
  exact hplace'.eq_of_encloses hplace (n.encloses.congr hn) hcover

/-- Spans of two lines, two of which start together, merged in two ways. -/
theorem accented_merge_laws :
    ∃ u : Span,
      u.Encloses [⟨0, 3, 0, 0, 1, 0⟩, ⟨0, 2, 0, 0, 0, 1⟩, ⟨3, 5, 1, 0, 1, 2⟩] ∧
      u.Placed (Lines.ofText "é\nab".toList).lineCol ∧
      ([⟨0, 2, 0, 0, 0, 1⟩, ⟨3, 5, 1, 0, 1, 2⟩] : List Span).foldl merge ⟨0, 3, 0, 0, 1, 0⟩ = u ∧
      (Merging.both (.one ⟨3, 5, 1, 0, 1, 2⟩) (.both (.one ⟨0, 2, 0, 0, 0, 1⟩)
        (.both (.one ⟨3, 5, 1, 0, 1, 2⟩) (.one ⟨0, 3, 0, 0, 1, 0⟩)))).merged = u := by
  have hplaced : ∀ s ∈ ([⟨0, 3, 0, 0, 1, 0⟩, ⟨0, 2, 0, 0, 0, 1⟩, ⟨3, 5, 1, 0, 1, 2⟩] : List Span),
      s.Placed (Lines.ofText "é\nab".toList).lineCol := by decide
  obtain ⟨-, hfold, -, hlaws, -⟩ := merge_laws
  obtain ⟨u, hcover, hplace, hmerged⟩ := (hlaws _).2 _ (by decide) hplaced
  have hright := hfold (.both (.one ⟨0, 3, 0, 0, 1, 0⟩)
    (.both (.one ⟨0, 2, 0, 0, 0, 1⟩) (.one ⟨3, 5, 1, 0, 1, 2⟩))) _ _ rfl
  refine ⟨u, hcover, hplace, hright.symm.trans (hmerged _ fun s => ?_), hmerged _ fun s => ?_⟩
  · simp [Merging.spans]
  · simp only [Merging.spans, List.mem_append, List.mem_cons, List.not_mem_nil, or_false]
    tauto

end Span

end Workflow
