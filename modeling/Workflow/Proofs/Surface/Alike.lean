import Workflow.Proofs.Surface.ReadPhrases

/-!
Phrases from different places of a text, or from different texts. They are alike when they break the
same rules and stand for the same, up to spans.
-/

namespace Workflow.Surface

/-- Both are sound or neither is, and they have the same value, each in its own lines. -/
structure Alike {α β : Type} (sound : α → Prop) (value : Lines → α → β) (x y : α) : Prop where
  sound : sound x ↔ sound y
  value : ∀ lines lines', value lines x = value lines' y

/-- Lists, judged and valued member by member. -/
theorem Alike.list {α β γ : Type} {sound : α → Prop} {value : Lines → α → β}
    {all : List α → Prop} {values : Lines → List α → γ} {f : β → γ → γ}
    (hall : ∀ x xs, all (x :: xs) ↔ sound x ∧ all xs)
    (hnil : ∀ lines lines', values lines [] = values lines' [])
    (hcons : ∀ lines x xs, values lines (x :: xs) = f (value lines x) (values lines xs))
    {xs ys : List α} (h : List.Forall₂ (Alike sound value) xs ys) : Alike all values xs ys := by
  induction h with
  | nil => exact ⟨.rfl, hnil⟩
  | cons h _ ih =>
    refine ⟨by rw [hall, hall, h.sound, ih.sound], fun lines lines' => ?_⟩
    rw [hcons, hcons, h.value lines lines', ih.value lines lines']

/-! ### Literals and arguments -/

def SameLiteral : Literal → Literal → Prop := Alike Literal.Accepted fun _ => Literal.value

theorem SameLiteral.array {ls ls' : List Literal} (h : List.Forall₂ SameLiteral ls ls') :
    SameLiteral (.array ls) (.array ls') := by
  have hls : Alike Literal.AllAccepted (fun _ => Literal.values) ls ls' :=
    .list (fun _ _ => .rfl) (fun _ _ => rfl) (fun _ _ _ => rfl) h
  exact ⟨hls.sound, fun lines lines' => congrArg Value.array (hls.value lines lines')⟩

def SameArgument : Argument → Argument → Prop := Alike Argument.Accepted fun _ => Argument.arg

/-- What makes the same argument of a key. -/
def SameArgValue (x y : ArgValue) : Prop :=
  ∀ key e e', SameArgument (.keyed key x e) (.keyed key y e')

theorem SameLiteral.argValue {l l' : Literal} (h : SameLiteral l l') :
    SameArgValue (.literal l) (.literal l') := by
  intro key e e'
  refine ⟨h.sound, fun lines lines' => ?_⟩
  rw [Argument.arg, Argument.arg, h.value lines lines']

theorem sameArguments {as as' : List Argument} (h : List.Forall₂ SameArgument as as') :
    Alike ArgsSound (fun _ as => as.map Argument.arg) as as' := by
  have has : Alike (fun as : List Argument => ∀ a ∈ as, a.Accepted)
      (fun _ as => as.map Argument.arg) as as' :=
    .list (fun _ _ => List.forall_mem_cons) (fun _ _ => rfl) (fun _ _ _ => rfl) h
  have hargs : ∀ as : List Argument, ArgsSound as ↔
      (∀ a ∈ as, a.Accepted) ∧ ((as.map Argument.arg).map Arg.key).Nodup := by
    intro as
    rw [List.map_map]
    exact ⟨fun h => ⟨h.accepted, h.keys⟩, fun h => ⟨h.1, h.2⟩⟩
  refine ⟨?_, has.value⟩
  rw [hargs, hargs, has.sound, has.value [] []]

/-! ### Statements -/

def SameStatement : Statement → Statement → Prop :=
  Alike Statement.Sound fun lines s => (s.node lines).bare

def SameBlock : Block → Block → Prop := Alike Block.Sound fun lines b => (b.node lines).bare

theorem sameStatements {ss ss' : List Statement} (h : List.Forall₂ SameStatement ss ss') :
    Alike AllSound (fun lines ss => Node.bareOf (nodesOf lines ss)) ss ss' :=
  .list (fun _ _ => .rfl) (fun _ _ => rfl) (fun _ _ _ => rfl) h

theorem SameBlock.mk {ss ss' : List Statement} {e e' : Extent}
    (h : List.Forall₂ SameStatement ss ss') : SameBlock (.mk ss e) (.mk ss' e') := by
  have hss := sameStatements h
  have hnil : ss ≠ [] ↔ ss' ≠ [] := by
    cases h <;> simp
  refine ⟨and_congr hnil hss.sound, fun lines lines' => ?_⟩
  rw [Block.node, Block.node, bare_joined, bare_joined, hss.value lines lines']

/-- Bindings of the same list to the same element. -/
def SameBinding (p q : BindingPhrase) : Prop := p.binding = q.binding

theorem SameStatement.batch {ps ps' : List BindingPhrase} {b b' : Block} {e e' : Extent}
    (hps : List.Forall₂ SameBinding ps ps') (hb : SameBlock b b') :
    SameStatement (.batch ps b e) (.batch ps' b' e') := by
  have hbindings : ps.map BindingPhrase.binding = ps'.map BindingPhrase.binding := by
    rwa [← List.forall₂_eq_eq_eq, List.forall₂_map_left_iff, List.forall₂_map_right_iff]
  have hsound : ∀ ps : List BindingPhrase, (ps ≠ [] ∧ BindingsSound ps) ↔
      ps.map BindingPhrase.binding ≠ [] ∧
        ((ps.map BindingPhrase.binding).map Binding.list).Nodup ∧
        ((ps.map BindingPhrase.binding).map Binding.element).Nodup := by
    intro ps
    rw [List.map_map, List.map_map, Ne, Ne, List.map_eq_nil_iff]
    exact and_congr_right fun _ => ⟨fun h => ⟨h.lists, h.elements⟩, fun h => ⟨h.1, h.2⟩⟩
  constructor
  · rw [Statement.Sound, Statement.Sound, ← and_assoc, ← and_assoc, hsound, hsound, hbindings,
      hb.sound]
  · intro lines lines'
    rw [Statement.node, Statement.node, Node.bare, Node.bare, hbindings, hb.value lines lines']

theorem SameStatement.call {name : List Char} {as as' : List Argument} {o o' : Option Block}
    {e e' : Extent} (has : List.Forall₂ SameArgument as as') (ho : Option.Rel SameBlock o o') :
    SameStatement (.call name as o e) (.call name as' o' e') := by
  have hargs := sameArguments has
  cases ho with
  | none =>
    refine ⟨hargs.sound, fun lines lines' => ?_⟩
    rw [Statement.node, Statement.node, Node.bare, Node.bare, hargs.value lines lines']
  | some hb =>
    refine ⟨and_congr hargs.sound hb.sound, fun lines lines' => ?_⟩
    rw [Statement.node, Statement.node, Node.bare, Node.bare, hargs.value lines lines',
      hb.value lines lines']

/-! ### Declarations -/

def SameItem : Item → Item → Prop := Alike Item.Sound fun lines item => (fileOf lines [item]).bare

theorem sameItems {is is' : List Item} (h : List.Forall₂ SameItem is is') :
    Alike (fun is : List Item => ∀ item ∈ is, item.Sound)
      (fun lines is => (fileOf lines is).bare) is is' :=
  .list (f := fun f g => ⟨f.workers ++ g.workers, f.definitions ++ g.definitions⟩)
    (fun _ _ => List.forall_mem_cons) (fun _ _ => rfl) fileOf_cons h

theorem SameItem.workers (names : List (List Char)) : SameItem (.workers names) (.workers names) :=
  ⟨.rfl, fun _ _ => rfl⟩

theorem SameItem.definition {name : List Char} {ps ps' : List Parameter} {b b' : Block}
    {e e' : Extent} (hps : List.Forall₂ (fun p q => p.name = q.name) ps ps') (hb : SameBlock b b') :
    SameItem (.definition ⟨name, ps, b, e⟩) (.definition ⟨name, ps', b', e'⟩) := by
  have hnames : (ps.map fun p => String.ofList p.name) = ps'.map fun p => String.ofList p.name := by
    rw [← List.forall₂_eq_eq_eq, List.forall₂_map_left_iff, List.forall₂_map_right_iff]
    exact hps.imp fun _ _ h => congrArg String.ofList h
  constructor
  · have hsound : ∀ p : DefinitionPhrase, p.Sound ↔
        (p.parameters.map fun q => String.ofList q.name).Nodup ∧ p.body.Sound :=
      fun p => ⟨fun h => ⟨h.parameters, h.body⟩, fun h => ⟨h.1, h.2⟩⟩
    rw [Item.Sound, Item.Sound, hsound, hsound, hnames, hb.sound]
  · intro lines lines'
    simp [fileOf, DefinitionFile.bare, DefinitionPhrase.definition, Definition.bare, hnames,
      hb.value lines lines']

end Workflow.Surface
