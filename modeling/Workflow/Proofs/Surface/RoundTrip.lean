import Workflow.Proofs.Surface.Written

/-!
Round trip: every list of statements and every list of declarations can be written down, and every
text that is written for it is read as its tree.
-/

namespace Workflow

namespace Surface

/-- Some things can be written down, and each text of what is written for them is read. -/
structure ReadsBack {α β : Type} (W : α → List Token → Prop) (xs : List α)
    (parse : String → Reading β) (P : β → Prop) : Prop where
  written : ∃ ts text, Row W xs ts ∧ Laid ts text
  read : ∀ ts text, Row W xs ts → Laid ts text → ∃ b, parse text = .ok b ∧ P b

theorem exists_text {α : Type} {W : α → List Token → Prop} {xs : List α}
    (h : ∀ x ∈ xs, ∃ ts, W x ts) : ∃ ts text, Row W xs ts ∧ Laid ts text := by
  obtain ⟨ts, hrow⟩ := exists_row h
  obtain ⟨text, htext⟩ := exists_laid ts
  exact ⟨ts, text, hrow, htext⟩

/-- A text begins before its tokens, when the gap in front is skipped. -/
theorem Laid.stands {ts : List Token} {text : String} (h : Laid ts text)
    (hsolid : ∀ t ∈ ts, Solid t) : Stands ts (Cursor.skipped ⟨0, text.toList⟩) := by
  obtain ⟨g, cs, hg, hcs, htext⟩ := h
  have hcs' : skipBlanks cs = cs := Stands.skipBlanks_eq (c := ⟨0, cs⟩) ⟨hsolid, hcs⟩
  refine ⟨hsolid, ?_⟩
  rw [Cursor.skipped_rest, htext, skipBlanks_gap hg, hcs']
  exact hcs

/-- A rule that takes rows reads a whole text. -/
theorem read_whole {α β : Type} {W : α → List Token → Prop} {p : Rule β} {P : α → β → Prop}
    {O : Token → Prop} {xs : List α} {ts : List Token} {text : String} (hrow : Row W xs ts)
    (htext : Laid ts text) (hsolid : ∀ x ∈ xs, ∀ ts, W x ts → ∀ t ∈ ts, Solid t)
    (hO : ∀ x ∈ xs, ∀ ts, W x ts → ∃ t ts', ts = t :: ts' ∧ O t)
    (hp : ∀ x ∈ xs, ∀ ts us c b, W x ts → (∀ t ∈ us.head?, O t) → Stands (ts ++ us) c →
      c.rest.length ≤ text.toList.length → c.rest.length ≤ b + 1 → Reads p c b us (P x))
    (hnone : ∀ c, Stands [] c → (p c).found = none) :
    ∃ as c, (whole p ⟨0, text.toList⟩).found = some (as, c) ∧ List.Forall₂ P xs as := by
  have hs : Stands (ts ++ []) (Cursor.skipped ⟨0, text.toList⟩) := by
    rw [List.append_nil]
    exact htext.stands (hrow.forall_mem hsolid)
  rw [← Cursor.skipped_skipped] at hs
  obtain ⟨as, c, hf, has, hend, -⟩ := reads_row hrow hO hp (by simp) hnone hs
    (Cursor.length_skipped_le _)
  refine ⟨as, c.skipped, ?_, has⟩
  have hrest : c.skipped.rest.isEmpty = true := by rw [hend.rest_nil]; rfl
  simp only [whole, Rule.found_bind, Rule.found_skip, Option.bind_some, hf, atEnd, hrest, if_pos,
    Rule.found_pure]

theorem read_eq {α : Type} {p : Rule α} {text : List Char} {a : α} {c : Cursor}
    (h : (p ⟨0, text⟩).found = some (a, c)) : read p text = .ok a := by
  simp [read, h]

end Surface

open Surface

/-- What is written for statements or declarations is read as their tree, up to places in the
text. -/
theorem parse_written (steps : List Sentence) (ds : List Declaration) :
    (steps ≠ [] → (∀ s ∈ steps, s.Legible) →
      ReadsBack Sentence.Writes steps parseBody (·.bare = Sentence.tree steps)) ∧
    ((∀ d ∈ ds, d.Legible) →
      ReadsBack Declaration.Writes ds parseFile (·.bare = Declaration.file ds)) := by
  constructor
  · intro hne hl
    refine ⟨exists_text fun s hs => (hl s hs).exists_writes, fun ts text hrow htext => ?_⟩
    obtain ⟨sts, c, hf, hsts⟩ := read_whole (P := IsNode) hrow htext
      (fun s hs _ hw => hw.solid (hl s hs)) (fun s hs _ hw => hw.opens (hl s hs))
      (fun s hs => (hl s hs).readsStatement _) fun c hc => statement_none (by simp) hc
    have hread : read body text.toList = .ok (.mk sts ⟨0, c.offset⟩) :=
      read_eq (c := c) (by simp [body, hf])
    have htree : IsTree steps (.mk sts ⟨0, c.offset⟩) := isTree_mk hne hsts
    refine ⟨_, ?_, htree.2 (Lines.ofText text.toList)⟩
    rw [parseBody, hread]
    exact (Block.judges_toNode _ .body _).ok htree.1
  · intro hl
    refine ⟨exists_text fun d hd => (hl d hd).exists_writes, fun ts text hrow htext => ?_⟩
    obtain ⟨items, c, hf, hitems⟩ := read_whole (P := IsItem) hrow htext
      (fun d hd _ hw => hw.solid (hl d hd)) (fun _ _ _ hw => hw.opens)
      (fun d hd ts us c b hw hus hs _ hb => reads_item (hl d hd) hw hus hs hb) fun _ => item_none
    have hfile := isItem_all hitems
    have hread : read program text.toList = .ok items := read_eq hf
    refine ⟨_, ?_, hfile.2 (Lines.ofText text.toList)⟩
    rw [parseFile, hread]
    exact (judges_readItems _ items).ok hfile.1

theorem letters_written :
    (∃ n, parseBody "open # the box\nbatch letters: :letter do send copies: 2 end" = .ok n ∧
      n.bare = Sentence.tree [.call "open" [], .batch [⟨"letters", "letter"⟩]
        [.call "send" [.literal "copies" (.number (.integer 2))]]]) ∧
    ∃ file, parseFile "superworker post :box do open end" = .ok file ∧
      file.bare = Declaration.file [.definition "post" ["box"] [.call "open" []]] := by
  have hopen : Sentence.Legible (.call "open" []) :=
    .call (.one (by decide)) ⟨by simp, by simp, by simp, by simp⟩
  have hsend : Sentence.Legible (.call "send" [.literal "copies" (.number (.integer 2))]) :=
    .call (.one (by decide)) ⟨by decide, by simp [Arg.literal],
      by simpa [Arg.literal] using .integer ⟨by decide, by decide⟩, by decide⟩
  have hbatch : Sentence.Legible (.batch [⟨"letters", "letter"⟩]
      [.call "send" [.literal "copies" (.number (.integer 2))]]) :=
    .batch ⟨by simp, by decide, by decide, by decide, by decide⟩ (by simp)
      (List.forall_mem_singleton.mpr hsend)
  have hpost : Declaration.Legible (.definition "post" ["box"] [.call "open" []]) :=
    .definition (.one (by decide)) (by decide) (by decide) (by simp)
      (List.forall_mem_singleton.mpr hopen)
  have hparsed := parse_written [.call "open" [], .batch [⟨"letters", "letter"⟩]
    [.call "send" [.literal "copies" (.number (.integer 2))]]]
    [.definition "post" ["box"] [.call "open" []]]
  have hcomment : IsGap (' ' :: ('#' :: " the box".toList ++ ['\n'])) :=
    .blank rfl (.comment (by decide) .nil)
  constructor
  · refine (hparsed.1 (by simp) (by simp [hopen, hbatch])).read _ _
      (.cons (.call .none) (.cons (.batch (.one rfl)
        (.cons (.call (.some (.one (.literal (.integer ⟨by decide, by decide⟩))))) .nil)) .nil)) ?_
    refine ⟨[], _, .nil, .cons hcomment (by simp) <| .space <| .space <| .space <| .space <|
      .space <| .space <| .space <| .cons .nil (by simp) .nil, ?_⟩
    rfl
  · refine (hparsed.2 (List.forall_mem_singleton.mpr hpost)).read _ _
      (.cons (.definition (.some (.one rfl)) (.cons (.call .none) .nil)) .nil) ?_
    refine ⟨[], _, .nil, .space <| .space <| .space <| .space <| .space <|
      .cons .nil (by simp) .nil, ?_⟩
    rfl

end Workflow
