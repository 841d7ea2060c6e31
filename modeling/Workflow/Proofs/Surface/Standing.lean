import Workflow.Proofs.Surface.Found
import Workflow.Proofs.Surface.Phrases

/-!
Where the matches of a derivation stand. Each begins and ends between two characters of the text,
its own text is what lies between, and the matches inside of it follow one another there.
-/

namespace Workflow.Surface

open Text (utf8Length)

/-! ### Cursors of one text -/

namespace Cursor

variable {c c' c'' : Cursor}

/-- A cursor and a later one in the same text. -/
def Ahead (c c' : Cursor) : Prop :=
  ∃ w, c.rest = w ++ c'.rest ∧ c'.offset = c.offset + utf8Length w

theorem Ahead.refl (c : Cursor) : c.Ahead c := ⟨[], rfl, rfl⟩

theorem Ahead.trans (h : c.Ahead c') (h' : c'.Ahead c'') : c.Ahead c'' := by
  obtain ⟨w, hw, ho⟩ := h
  obtain ⟨w', hw', ho'⟩ := h'
  refine ⟨w ++ w', ?_, ?_⟩
  · rw [hw, hw', List.append_assoc]
  · rw [ho', ho, Text.utf8Length_append, Nat.add_assoc]

theorem Ahead.offset_le (h : c.Ahead c') : c.offset ≤ c'.offset := by
  obtain ⟨w, -, ho⟩ := h
  exact ho ▸ Nat.le_add_right _ _

theorem Ahead.upTo (h : c.Ahead c') :
    c.rest = c.upTo c' ++ c'.rest ∧ c'.offset = c.offset + utf8Length (c.upTo c') := by
  obtain ⟨w, hw, ho⟩ := h
  have hword : c.upTo c' = w := by simp [Cursor.upTo, hw]
  rw [hword]
  exact ⟨hw, ho⟩

end Cursor

/-! ### Matches in a row -/

namespace Match

variable {ν : Type}

def start : Match ν → Nat
  | .mk _ start _ _ _ => start

def stop : Match ν → Nat
  | .mk _ _ stop _ _ => stop

def inner : Match ν → List (Match ν)
  | .mk _ _ _ _ inner => inner

/-- Matches one behind the other, from one offset up to another. -/
def InRow (hi : Nat) : (lo : Nat) → List (Match ν) → Prop
  | lo, [] => lo ≤ hi
  | lo, m :: ms => lo ≤ m.start ∧ m.start ≤ m.stop ∧ InRow hi m.stop ms

variable {lo lo' mid hi : Nat} {ms ms' : List (Match ν)} {m : Match ν}

theorem InRow.mono (h : InRow hi lo ms) (hle : lo' ≤ lo) : InRow hi lo' ms := by
  cases ms with
  | nil => exact Nat.le_trans hle h
  | cons m ms => exact ⟨Nat.le_trans hle h.1, h.2⟩

theorem InRow.le (h : InRow hi lo ms) : lo ≤ hi := by
  induction ms generalizing lo with
  | nil => exact h
  | cons m ms ih => exact Nat.le_trans h.1 (Nat.le_trans h.2.1 (ih h.2.2))

theorem InRow.append (h : InRow mid lo ms) (h' : InRow hi mid ms') : InRow hi lo (ms ++ ms') := by
  induction ms generalizing lo with
  | nil => exact h'.mono h
  | cons m ms ih => exact ⟨h.1, h.2.1, ih h.2.2⟩

theorem InRow.sublist (h : InRow hi lo ms) (hs : ms'.Sublist ms) : InRow hi lo ms' := by
  induction hs generalizing lo with
  | slnil => exact h
  | cons m _ ih => exact ih (h.2.2.mono (Nat.le_trans h.1 h.2.1))
  | cons_cons m _ ih => exact ⟨h.1, h.2.1, ih h.2.2⟩

theorem InRow.mem (h : InRow hi lo ms) (hm : m ∈ ms) : lo ≤ m.start ∧ m.stop ≤ hi := by
  induction ms generalizing lo with
  | nil => cases hm
  | cons k ms ih =>
    obtain ⟨hstart, hk, hrest⟩ := h
    rcases List.mem_cons.mp hm with rfl | hm
    · exact ⟨hstart, hrest.le⟩
    · obtain ⟨hm₁, hm₂⟩ := ih hrest hm
      exact ⟨Nat.le_trans hstart (Nat.le_trans hk hm₁), hm₂⟩

theorem InRow.pairwise (h : InRow hi lo ms) : ms.Pairwise fun k m => k.stop ≤ m.start := by
  induction ms generalizing lo with
  | nil => exact .nil
  | cons k ms ih => exact .cons (fun m hm => (h.2.2.mem hm).1) (ih h.2.2)

/-! ### All matches of a tree -/

mutual

/-- A property of a match and of all matches inside of it. -/
def Each (P : Match ν → Prop) : Match ν → Prop
  | .mk r start stop text inner => P (.mk r start stop text inner) ∧ EachOf P inner

def EachOf (P : Match ν → Prop) : List (Match ν) → Prop
  | [] => True
  | m :: ms => m.Each P ∧ EachOf P ms

end

variable {P : Match ν → Prop}

theorem eachOf_iff : EachOf P ms ↔ ∀ m ∈ ms, m.Each P := by
  induction ms with
  | nil => simp [EachOf]
  | cons m ms ih => rw [EachOf, ih, List.forall_mem_cons]

theorem each_iff : m.Each P ↔ P m ∧ ∀ k ∈ m.inner, k.Each P := by
  cases m with
  | mk r start stop text inner => rw [Each, eachOf_iff, Match.inner]

theorem Each.self (h : m.Each P) : P m := (each_iff.mp h).1

theorem Each.inner {k : Match ν} (h : m.Each P) (hk : k ∈ m.inner) : k.Each P :=
  (each_iff.mp h).2 k hk

mutual

/-- Induction over a match from what is inside of it. -/
theorem induction {motive : Match ν → Prop} (h : ∀ m, (∀ k ∈ m.inner, motive k) → motive m) :
    (m : Match ν) → motive m
  | .mk _ _ _ _ inner => h _ (inductionOf h inner)

theorem inductionOf {motive : Match ν → Prop} (h : ∀ m, (∀ k ∈ m.inner, motive k) → motive m) :
    (ms : List (Match ν)) → ∀ m ∈ ms, motive m
  | [] => nofun
  | m :: ms => List.forall_mem_cons.mpr ⟨induction h m, inductionOf h ms⟩

end

end Match

namespace PegGrammar

variable {ν : Type} {G : PegGrammar ν} {text : List Char} {m : PegMode} {e f : Peg ν}
  {r : ν} {c c' c'' : Cursor} {ms ms' : List (Match ν)} {o : Outcome ν}

/-- A match is what a rule was told with somewhere in a text. -/
inductive Stands (G : PegGrammar ν) (text : List Char) : Match ν → Prop
  | mk {m : PegMode} {r : ν} {c c' : Cursor} {inner : List (Match ν)}
    (hc : Cursor.Ahead ⟨0, text⟩ c) (ht : (G.kind r).isTold m = true)
    (h : Parses G ((G.kind r).mode m) (G.body r) c (some (inner, c'))) :
    Stands G text (.mk r c.offset c'.offset (c.upTo c') inner)

/-- What was matched from one cursor to another stands between them. -/
structure Laid (G : PegGrammar ν) (text : List Char) (c : Cursor) (ms : List (Match ν))
    (c' : Cursor) : Prop where
  ahead : c.Ahead c'
  row : Match.InRow c'.offset c.offset ms
  each : ∀ m ∈ ms, m.Each (Stands G text)

namespace Laid

theorem nil (h : c.Ahead c') : Laid G text c [] c' := ⟨h, h.offset_le, nofun⟩

theorem append (h : Laid G text c ms c') (h' : Laid G text c' ms' c'') :
    Laid G text c (ms ++ ms') c'' where
  ahead := h.ahead.trans h'.ahead
  row := h.row.append h'.row
  each := List.forall_mem_append.mpr ⟨h.each, h'.each⟩

end Laid

/-- A derivation in a text gives matches that stand in it, in the order in which they are told. -/
theorem Parses.laid (h : Parses G m e c o) (hc : Cursor.Ahead ⟨0, text⟩ c) :
    ∀ x, o = some x → Laid G text c x.1 x.2 := by
  induction h with
  | @text _ w _ rest h =>
    rintro x ⟨⟩
    exact .nil ⟨w, h, rfl⟩
  | @one _ _ _ y rest h hx =>
    rintro x ⟨⟩
    exact .nil ⟨[y], h, rfl⟩
  | text_none | one_none | start_none | stop_none | seq_none | no => nofun
  | start | stop | opt_none | star_none | no_none | blanks_none | again_none =>
    rintro x ⟨⟩
    exact .nil (.refl _)
  | @rule m r c o h ih =>
    intro x hx
    obtain ⟨⟨inner, c'⟩, rfl, rfl⟩ := Option.map_eq_some_iff.mp hx
    have hinner := ih hc _ rfl
    cases ht : (G.kind r).isTold m with
    | false => exact hinner
    | true =>
      have hle := hinner.ahead.offset_le
      refine ⟨hinner.ahead, ⟨Nat.le_refl _, hle, Nat.le_refl _⟩, fun k hk => ?_⟩
      obtain rfl := List.mem_singleton.mp hk
      exact Match.each_iff.mpr ⟨.mk hc ht h, hinner.each⟩
  | seq _ _ _ ihe ihb ihf =>
    intro x hx
    obtain ⟨y, hy, rfl⟩ := Option.map_eq_some_iff.mp hx
    have hfirst := ihe hc _ rfl
    have hgap := ihb (hc.trans hfirst.ahead) _ rfl
    have hsecond := ihf ((hc.trans hfirst.ahead).trans hgap.ahead) y hy
    exact hfirst.append ((Laid.nil hgap.ahead).append hsecond)
  | alt_left _ ih | alt_right _ _ _ ih | opt _ ih | blanks _ ih => exact ih hc
  | star _ _ ihe iha =>
    intro x hx
    obtain ⟨y, hy, rfl⟩ := Option.map_eq_some_iff.mp hx
    have hfirst := ihe hc _ rfl
    exact hfirst.append (iha (hc.trans hfirst.ahead) y hy)
  | again _ _ _ ihb ihe iha =>
    intro x hx
    obtain ⟨y, hy, rfl⟩ := Option.map_eq_some_iff.mp hx
    have hgap := ihb hc _ rfl
    have hfirst := ihe (hc.trans hgap.ahead) _ rfl
    have hothers := iha ((hc.trans hgap.ahead).trans hfirst.ahead) y hy
    exact (Laid.nil hgap.ahead).append (hfirst.append hothers)

theorem Stands.row {k : Match ν} (h : G.Stands text k) : Match.InRow k.stop k.start k.inner := by
  cases h with
  | mk hc _ h => exact (h.laid hc _ rfl).row

/-- The text of a match lies between its two offsets. -/
theorem Stands.cut {k : Match ν} (h : G.Stands text k) :
    ∃ before after, text = before ++ k.text ++ after ∧ k.start = utf8Length before ∧
      k.stop = utf8Length (before ++ k.text) := by
  cases h with
  | @mk _ _ c c' _ hc _ h =>
    obtain ⟨before, hbefore, hoffset⟩ := hc
    obtain ⟨hrest, hstop⟩ := (h.laid ⟨before, hbefore, hoffset⟩ _ rfl).ahead.upTo
    have hstart : c.offset = utf8Length before := by rw [hoffset, Nat.zero_add]
    refine ⟨before, c'.rest, ?_, hstart, ?_⟩
    · rw [List.append_assoc]
      exact hrest ▸ hbefore
    · rw [Text.utf8Length_append, ← hstart]
      exact hstop

/-! ### What a derivation is made of -/

theorem Parses.seq_some (h : Parses G m (.seq e f) c (some (ms, c''))) :
    ∃ ms₁ ms₂ c₁ c₂, Parses G m e c (some (ms₁, c₁)) ∧ Parses G m f c₂ (some (ms₂, c'')) ∧
      ms = ms₁ ++ ms₂ := by
  generalize ho : some (ms, c'') = o at h
  cases h with
  | seq_none => cases ho
  | seq he hb hf =>
    obtain ⟨⟨ms₂, d⟩, rfl, hx⟩ := Option.map_eq_some_iff.mp ho.symm
    cases hx
    exact ⟨_, ms₂, _, _, he, hf, rfl⟩

theorem Parses.rule_some (h : Parses G m (.rule r) c (some (ms, c')))
    (ht : (G.kind r).isTold m = true) :
    ∃ inner, ms = [.mk r c.offset c'.offset (c.upTo c') inner] := by
  generalize ho : some (ms, c') = o at h
  cases h with
  | rule h =>
    obtain ⟨⟨inner, d⟩, rfl, hx⟩ := Option.map_eq_some_iff.mp ho.symm
    rw [if_pos ht] at hx
    cases hx
    exact ⟨inner, rfl⟩

/-- What is told of a repetition was told of its rounds. -/
theorem Parses.again_some {k : Match ν} (h : Parses G m (.again e) c (some (ms, c')))
    (hk : k ∈ ms) : ∃ d d' ms', Parses G m e d (some (ms', d')) ∧ k ∈ ms' := by
  generalize hx : Peg.again e = x at h
  generalize ho : some (ms, c') = o at h
  induction h generalizing ms with
  | again _ he _ _ _ iha =>
    cases hx
    obtain ⟨⟨ms₂, d⟩, rfl, hx⟩ := Option.map_eq_some_iff.mp ho.symm
    cases hx
    rcases List.mem_append.mp hk with hk | hk
    · exact ⟨_, _, _, he, hk⟩
    · exact iha hk rfl rfl
  | again_none =>
    cases ho
    cases hk
  | _ => cases hx

theorem Parses.star_some {k : Match ν} (h : Parses G m (.star e) c (some (ms, c')))
    (hk : k ∈ ms) : ∃ d d' ms', Parses G m e d (some (ms', d')) ∧ k ∈ ms' := by
  generalize ho : some (ms, c') = o at h
  cases h with
  | star_none =>
    cases ho
    cases hk
  | star he ha =>
    obtain ⟨⟨ms₂, d⟩, rfl, hx⟩ := Option.map_eq_some_iff.mp ho.symm
    cases hx
    rcases List.mem_append.mp hk with hk | hk
    · exact ⟨_, _, _, he, hk⟩
    · exact ha.again_some hk

end PegGrammar

end Workflow.Surface
