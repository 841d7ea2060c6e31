import Workflow.Proofs.Data.Except
import Workflow.Proofs.Node.Flat
import Workflow.Proofs.Surface.Joining

/-!
Juxtaposition: a text and, on a further line, another are read as the statements or declarations of
the one and then those of the other.
-/

namespace Workflow

namespace Surface

section

variable {α : Type} {p : Rule α} {R : α → α → Prop} {S : List Char → Prop} {text a b : List Char}
  {as bs : List α} {c c' : Cursor}

/-- A text is taken as a whole where nothing but blanks is left of it. -/
theorem found_whole_iff : (whole p ⟨0, text⟩).found = some (as, c) ↔
    ∃ d, (Rule.star p (Cursor.skipped ⟨0, text⟩)).found = some (as, d) ∧
      skipBlanks d.rest = [] ∧ d.skipped = c := by
  simp only [whole, atEnd, Rule.found_bind, Rule.found_skip, Rule.found_pure, Option.bind_some,
    Option.bind_eq_some_iff, Option.some.injEq, Prod.mk.injEq, Prod.exists]
  constructor
  · rintro ⟨as', d, hstar, _, d', hend, rfl, rfl⟩
    split at hend
    · rename_i hempty
      cases hend
      exact ⟨d, hstar, List.isEmpty_iff.mp hempty, rfl⟩
    · cases hend
  · rintro ⟨d, hstar, hrest, rfl⟩
    exact ⟨as, d, hstar, (), d.skipped, by rw [Cursor.skipped_rest, hrest]; rfl, rfl, rfl⟩

/-- The rounds on two texts are made one after the other on the joined text. -/
theorem found_whole_append (hp : ∀ v, Seam v → Keeps v 1 S R p p)
    (hstart : ∀ v, Seam v → ∀ c x c', (p c).found = some (x, c') → skipBlanks c.rest = c.rest →
      S (skipBlanks (c'.rest ++ v)) → S (skipBlanks (c.rest ++ v)))
    (hS : S []) (hnone : ∀ c : Cursor, c.rest = [] → (p c).found = none)
    (ha : (whole p ⟨0, a⟩).found = some (as, c)) (hb : (whole p ⟨0, b⟩).found = some (bs, c')) :
    ∃ as' bs' d, (whole p ⟨0, a ++ '\n' :: b⟩).found = some (as' ++ bs', d) ∧
      List.Forall₂ R as as' ∧ List.Forall₂ R bs bs' := by
  obtain ⟨ca, ha, hca, -⟩ := found_whole_iff.mp ha
  obtain ⟨cb, hb, hcb, -⟩ := found_whole_iff.mp hb
  have hnil : Seam [] := .inl rfl
  have hline : Seam ('\n' :: b) := .inr ⟨b, rfl⟩
  have hblank : skipBlanks ('\n' :: b) = skipBlanks b := rfl
  -- From the end: behind the second text nothing is left, and behind the first the second is.
  obtain ⟨-, hsb, hrb⟩ := (hp _ hnil).rounds hnil (hstart _ hnil) hb (by
    rw [List.append_nil, hcb]
    exact hS)
  rw [List.append_nil, Cursor.skipped_rest, skipBlanks_idem] at hsb
  obtain ⟨-, -, hra⟩ := (hp _ hline).rounds hline (hstart _ hline) ha (by
    rw [skipBlanks_append_nil hline _ hca, hblank]
    exact hsb)
  obtain ⟨as', e, has, he, -, hstar⟩ := hra (Cursor.skipped ⟨0, a ++ '\n' :: b⟩) (by
    rw [Cursor.skipped_rest, Cursor.skipped_rest, skipBlanks_skipBlanks_append hline,
      skipBlanks_idem])
  rw [skipBlanks_append_nil hline _ hca, hblank] at he
  obtain ⟨bs', e', hbs, he', -, hstar'⟩ := hrb e (by
    rw [he, List.append_nil, Cursor.skipped_rest, skipBlanks_idem])
  rw [List.append_nil, hcb] at he'
  refine ⟨as', bs', e'.skipped, found_whole_iff.mpr ⟨e', ?_, he', rfl⟩, has, hbs⟩
  rw [hstar, hstar', Rule.found_star_nil (hnone _ he')]
  simp

end

theorem read_eq_ok_iff {α : Type} {p : Rule α} {text : List Char} {x : α} :
    read p text = .ok x ↔ ∃ c, (p ⟨0, text⟩).found = some (x, c) := by
  rw [read]
  cases h : (p ⟨0, text⟩).found with
  | none => simp
  | some y => simp [Prod.ext_iff]

theorem stands_nil {c : Cursor} (hc : c.rest = []) : Stands [] c :=
  ⟨by simp, by rw [hc]; exact .nil⟩

/-! ### Steps -/

theorem allSound_append (ss ss' : List Statement) :
    AllSound (ss ++ ss') ↔ AllSound ss ∧ AllSound ss' := by
  induction ss with
  | nil => simp [AllSound]
  | cons s ss ih => rw [List.cons_append, AllSound, AllSound, ih, and_assoc]

/-- The trees of some statements, without spans. -/
def bareNodes (lines : Lines) (ss : List Statement) : List Node := Node.bareOf (nodesOf lines ss)

theorem bareNodes_append (lines : Lines) (ss ss' : List Statement) :
    bareNodes lines (ss ++ ss') = bareNodes lines ss ++ bareNodes lines ss' := by
  induction ss with
  | nil => rfl
  | cons s ss ih => exact congrArg ((s.node lines).bare :: ·) ih

theorem bareNodes_ne_nil {lines : Lines} {ss : List Statement} (h : ss ≠ []) :
    bareNodes lines ss ≠ [] := by
  cases ss with
  | nil => exact absurd rfl h
  | cons s ss => exact List.cons_ne_nil _ _

theorem joined_append (span : Span) {ns ms : List Node} (hn : ns ≠ []) (hm : ms ≠ []) :
    joined span (ns ++ ms) = .sequence (ns ++ ms) span := by
  match ns, ms with
  | [], _ => exact absurd rfl hn
  | _, [] => exact absurd rfl hm
  | [_], _ :: _ => rfl
  | _ :: _ :: _, _ => rfl

/-- The steps of a tree that was read are its statements: none of these is a sequence. -/
theorem steps_node (lines : Lines) (ss : List Statement) (e : Extent) :
    ((Block.mk ss e).node lines).bare.steps = bareNodes lines ss := by
  rw [Block.node, bare_joined]
  match ss with
  | [] => rfl
  | [.batch _ _ _] => rfl
  | [.call _ _ none _] => rfl
  | [.call _ _ (some _) _] => rfl
  | _ :: _ :: _ => rfl

/-! ### Texts -/

theorem parseBody_eq_ok_iff {text : String} {n : Node} : parseBody text = .ok n ↔
    ∃ ss c, (whole (statement block) ⟨0, text.toList⟩).found = some (ss, c) ∧
      (Block.mk ss ⟨0, c.offset⟩).Sound ∧
      (Block.mk ss ⟨0, c.offset⟩).node (Lines.ofText text.toList) = n := by
  have hparse : parseBody text = .ok n ↔ ∃ b, read body text.toList = .ok b ∧
      b.Sound ∧ n = b.node (Lines.ofText text.toList) := by
    rw [parseBody]
    cases read body text.toList with
    | error offset => simp
    | ok b => simp [(Block.judges_toNode _ _ b).eq_ok_iff]
  rw [hparse]
  simp only [read_eq_ok_iff, body, found_located, Option.map_eq_some_iff]
  constructor
  · rintro ⟨_, ⟨_, ⟨ss, c⟩, hf, he⟩, hs, rfl⟩
    cases he
    exact ⟨ss, c, hf, hs, rfl⟩
  · rintro ⟨ss, c, hf, hs, rfl⟩
    exact ⟨_, ⟨c, (ss, c), hf, rfl⟩, hs, rfl⟩

theorem parseFile_eq_ok_iff {text : String} {f : DefinitionFile} : parseFile text = .ok f ↔
    ∃ items c, (program ⟨0, text.toList⟩).found = some (items, c) ∧
      (∀ item ∈ items, item.Sound) ∧ fileOf (Lines.ofText text.toList) items = f := by
  have hparse : parseFile text = .ok f ↔ ∃ items, read program text.toList = .ok items ∧
      (∀ item ∈ items, item.Sound) ∧ f = fileOf (Lines.ofText text.toList) items := by
    rw [parseFile]
    cases read program text.toList with
    | error offset => simp
    | ok items => simp [(judges_readItems _ items).eq_ok_iff]
  rw [hparse]
  simp only [read_eq_ok_iff]
  constructor
  · rintro ⟨items, ⟨c, hf⟩, hs, rfl⟩
    exact ⟨items, c, hf, hs, rfl⟩
  · rintro ⟨items, c, hf, hs, rfl⟩
    exact ⟨items, ⟨c, hf⟩, hs, rfl⟩

end Surface

open Surface

/-- A text on the line behind another adds its statements or declarations to the ones of that, up to
places in the text. -/
theorem parse_juxtaposed (a b : String) :
    (∀ m n, parseBody a = .ok m → parseBody b = .ok n → ∃ k, parseBody (a ++ "\n" ++ b) = .ok k ∧
      k.bare = .sequence (m.bare.steps ++ n.bare.steps) Span.zero) ∧
    ∀ f g, parseFile a = .ok f → parseFile b = .ok g → ∃ h, parseFile (a ++ "\n" ++ b) = .ok h ∧
      h.bare.workers = f.bare.workers ++ g.bare.workers ∧
      h.bare.definitions = f.bare.definitions ++ g.bare.definitions := by
  have htext : (a ++ "\n" ++ b).toList = a.toList ++ '\n' :: b.toList := by simp
  constructor
  · intro m n hm hn
    obtain ⟨as, ca, ha, hsa, rfl⟩ := parseBody_eq_ok_iff.mp hm
    obtain ⟨bs, cb, hb, hsb, rfl⟩ := parseBody_eq_ok_iff.mp hn
    obtain ⟨as', bs', c, hf, hra, hrb⟩ := found_whole_append (S := EndsCall)
      (fun _ hv => keeps_statement hv (keeps_block hv) refusesBlock_block refusesBlock_block)
      (fun _ hv _ _ _ => endsCall_of_statement hv refusesBlock_block) endsCall_nil
      (fun _ hc => statement_none (by simp) (stands_nil hc)) ha hb
    have hblock : SameBlock (.mk as ⟨0, ca.offset⟩) (.mk as' ⟨0, ca.offset⟩) := .mk hra
    have hblock' : SameBlock (.mk bs ⟨0, cb.offset⟩) (.mk bs' ⟨0, cb.offset⟩) := .mk hrb
    obtain ⟨hne, hsound⟩ := hblock.sound.mp hsa
    obtain ⟨hne', hsound'⟩ := hblock'.sound.mp hsb
    refine ⟨_, parseBody_eq_ok_iff.mpr ⟨as' ++ bs', c, by rw [htext, hf], ⟨?_, ?_⟩, rfl⟩, ?_⟩
    · exact List.append_ne_nil_of_left_ne_nil hne bs'
    · exact (allSound_append as' bs').mpr ⟨hsound, hsound'⟩
    · generalize Lines.ofText (a ++ "\n" ++ b).toList = lines
      rw [hblock.value _ lines, hblock'.value _ lines, steps_node, steps_node, Block.node,
        bare_joined]
      show joined _ (bareNodes lines (as' ++ bs')) = _
      rw [bareNodes_append, joined_append _ (bareNodes_ne_nil hne) (bareNodes_ne_nil hne')]
  · intro f g hf hg
    obtain ⟨as, ca, ha, hsa, rfl⟩ := parseFile_eq_ok_iff.mp hf
    obtain ⟨bs, cb, hb, hsb, rfl⟩ := parseFile_eq_ok_iff.mp hg
    obtain ⟨as', bs', c, hf, hra, hrb⟩ := found_whole_append (S := AtWord)
      (fun _ hv => keeps_item hv) (fun _ hv _ _ _ h hc _ => atWord_of_item hv h hc)
      (by rintro _ ⟨⟩)
      (fun _ hc => item_none (stands_nil hc)) ha hb
    have hfile := sameItems hra
    have hfile' := sameItems hrb
    refine ⟨_, parseFile_eq_ok_iff.mpr ⟨as' ++ bs', c, by rw [program, htext, hf], ?_, rfl⟩, ?_⟩
    · exact List.forall_mem_append.mpr ⟨hfile.sound.mp hsa, hfile'.sound.mp hsb⟩
    · generalize Lines.ofText (a ++ "\n" ++ b).toList = lines
      rw [hfile.value _ lines, hfile'.value _ lines]
      simp [fileOf, DefinitionFile.bare]

theorem lid_juxtaposed :
    (∃ k, parseBody ("open # the box" ++ "\n" ++ "box:lid") = .ok k ∧
      k.bare.steps.map Node.invoked = [["open"], ["box"]]) ∧
    ∃ h, parseFile ("workers Open, Close" ++ "\n" ++ "superworker Use do Open end") = .ok h ∧
      h.bare.workers = ["Open", "Close"] ∧ h.bare.definitions.map Definition.name = ["Use"] := by
  constructor
  · obtain ⟨m, hm, hopen⟩ : ∃ m, parseBody "open # the box" = .ok m ∧
        m.bare.steps.map Node.invoked = [["open"]] :=
      Except.exists_of_toOption_map _ (by decide +kernel)
    obtain ⟨n, hn, hbox⟩ : ∃ n, parseBody "box:lid" = .ok n ∧
        n.bare.steps.map Node.invoked = [["box"]] :=
      Except.exists_of_toOption_map _ (by decide +kernel)
    obtain ⟨k, hk, hsteps⟩ := (parse_juxtaposed "open # the box" "box:lid").1 m n hm hn
    refine ⟨k, hk, ?_⟩
    rw [hsteps, Node.steps, List.map_append, hopen, hbox]
    rfl
  · obtain ⟨f, hf, hfirst⟩ : ∃ f, parseFile "workers Open, Close" = .ok f ∧
        (f.bare.workers, f.bare.definitions.map Definition.name) = (["Open", "Close"], []) :=
      Except.exists_of_toOption_map _ (by decide +kernel)
    obtain ⟨g, hg, hsecond⟩ : ∃ g, parseFile "superworker Use do Open end" = .ok g ∧
        (g.bare.workers, g.bare.definitions.map Definition.name) = ([], ["Use"]) :=
      Except.exists_of_toOption_map _ (by decide +kernel)
    obtain ⟨hnames, hdefined⟩ := Prod.mk.inj hfirst
    obtain ⟨hnames', hdefined'⟩ := Prod.mk.inj hsecond
    obtain ⟨h, hh, hworkers, hdefinitions⟩ :=
      (parse_juxtaposed "workers Open, Close" "superworker Use do Open end").2 f g hf hg
    refine ⟨h, hh, ?_, ?_⟩
    · rw [hworkers, hnames, hnames', List.append_nil]
    · rw [hdefinitions, List.map_append, hdefined, hdefined', List.nil_append]

end Workflow
