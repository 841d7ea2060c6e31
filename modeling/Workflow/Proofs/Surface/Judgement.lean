import Workflow.Surface.Reading

/-!
The rules that a text has to keep beside the grammar, and the tree that a text stands for which
keeps them. Reading gives that tree when they are kept, and otherwise tells of a malformation.
-/

namespace Workflow.Surface

/-- Reading gives a value where a condition holds, and finds something malformed where it does
not. -/
structure Judges {α : Type} (x : Reading α) (P : Prop) (a : α) : Prop where
  ok : P → x = .ok a
  fault : ¬P → ∃ reason span, x = .error (.malformed reason span)

namespace Judges

variable {α β : Type} {x : Reading α} {f : α → Reading β} {P Q : Prop} {a : α} {b : β}

theorem pure : Judges (.ok a) True a := ⟨fun _ => rfl, fun h => absurd trivial h⟩

theorem bind (hx : Judges x P a) (hf : Judges (f a) Q b) : Judges (x >>= f) (P ∧ Q) b := by
  constructor
  · rintro ⟨hp, hq⟩
    rw [hx.ok hp]
    exact hf.ok hq
  · intro h
    by_cases hp : P
    · rw [hx.ok hp]
      exact hf.fault fun hq => h ⟨hp, hq⟩
    · obtain ⟨reason, span, he⟩ := hx.fault hp
      exact ⟨reason, span, by rw [he]; rfl⟩

theorem map (g : α → β) (hx : Judges x P a) : Judges (x.map g) P (g a) := by
  constructor
  · intro hp
    rw [hx.ok hp]
    rfl
  · intro hp
    obtain ⟨reason, span, he⟩ := hx.fault hp
    exact ⟨reason, span, by rw [he]; rfl⟩

/-- A check in front of the rest. -/
theorem guard {c : Prop} [Decidable c] {reason : Malformation} {span : Span} (hx : Judges x P a) :
    Judges (if c then malformed reason span else x) (¬c ∧ P) a := by
  by_cases hc : c
  · rw [if_pos hc]
    exact ⟨fun h => absurd hc h.1, fun _ => ⟨reason, span, rfl⟩⟩
  · rw [if_neg hc]
    exact ⟨fun h => hx.ok h.2, fun h => hx.fault fun hp => h ⟨hc, hp⟩⟩

theorem congr (hx : Judges x P a) (h : P ↔ Q) : Judges x Q a :=
  ⟨fun hq => hx.ok (h.mpr hq), fun hq => hx.fault fun hp => hq (h.mp hp)⟩

theorem eq_ok_iff (hx : Judges x P a) {a' : α} : x = .ok a' ↔ P ∧ a' = a := by
  by_cases hp : P
  · simp [hx.ok hp, hp, eq_comm]
  · obtain ⟨reason, span, he⟩ := hx.fault hp
    simp [he, hp]

theorem eq_malformed_iff (hx : Judges x P a) :
    (∃ reason span, x = .error (.malformed reason span)) ↔ ¬P := by
  refine ⟨?_, hx.fault⟩
  rintro ⟨reason, span, he⟩ hp
  rw [hx.ok hp] at he
  cases he

theorem ne_unreadable (hx : Judges x P a) {span : Span} : x ≠ .error (.unreadable span) := by
  intro h
  by_cases hp : P
  · rw [hx.ok hp] at h
    cases h
  · obtain ⟨reason, span', he⟩ := hx.fault hp
    rw [he] at h
    cases h

end Judges

/-! ### Literals -/

mutual

/-- The JSON reader takes every string and number. -/
def Literal.Accepted : Literal → Prop
  | .token text _ => ∃ v, readToken text = .ok v
  | .bool _ | .nil => True
  | .array items => Literal.AllAccepted items

def Literal.AllAccepted : List Literal → Prop
  | [] => True
  | l :: ls => l.Accepted ∧ Literal.AllAccepted ls

end

mutual

/-- What an accepted literal stands for. -/
def Literal.value : Literal → Value
  | .token text _ => (readToken text).toOption.getD .null
  | .bool b => .bool b
  | .nil => .null
  | .array items => .array (Literal.values items)

def Literal.values : List Literal → List Value
  | [] => []
  | l :: ls => l.value :: Literal.values ls

end

mutual

theorem Literal.judges_toValue (lines : Lines) :
    (l : Literal) → Judges (l.toValue lines) l.Accepted l.value
  | .token text e => by
    rw [Literal.toValue, Literal.Accepted, Literal.value]
    cases readToken text with
    | ok v => exact Judges.pure.congr (by simp)
    | error r => exact ⟨nofun, fun _ => ⟨_, _, rfl⟩⟩
  | .bool b => Judges.pure
  | .nil => Judges.pure
  | .array items => by
    rw [Literal.toValue, Literal.Accepted, Literal.value]
    exact (Literal.judges_toValues lines items).map Value.array

theorem Literal.judges_toValues (lines : Lines) :
    (ls : List Literal) →
      Judges (Literal.toValues lines ls) (Literal.AllAccepted ls) (Literal.values ls)
  | [] => Judges.pure
  | l :: ls => by
    rw [Literal.toValues, Literal.AllAccepted, Literal.values]
    refine .congr
      (.bind (l.judges_toValue lines) (.bind (Literal.judges_toValues lines ls) .pure)) ?_
    rw [and_true]

end

/-! ### Arguments, bindings and parameters -/

def Argument.Accepted : Argument → Prop
  | .keyed _ (.literal l) _ => l.Accepted
  | _ => True

def Argument.arg : Argument → Arg
  | .shorthand name _ => .param (String.ofList name)
  | .keyed key (.symbol name) _ => .keyed (String.ofList key) (String.ofList name)
  | .keyed key (.literal l) _ => .literal (String.ofList key) l.value

def BindingPhrase.binding (p : BindingPhrase) : Binding :=
  ⟨String.ofList p.list, String.ofList p.element⟩

/-- No key is given twice. -/
structure ArgsSound (args : List Argument) : Prop where
  accepted : ∀ a ∈ args, a.Accepted
  keys : (args.map fun a => a.arg.key).Nodup

/-- No list and no element is bound twice. -/
structure BindingsSound (phrases : List BindingPhrase) : Prop where
  lists : (phrases.map fun p => p.binding.list).Nodup
  elements : (phrases.map fun p => p.binding.element).Nodup

theorem Argument.judges_toArg (lines : Lines) (a : Argument) :
    Judges (a.toArg lines) a.Accepted a.arg := by
  match a with
  | .shorthand name e => exact Judges.pure
  | .keyed key (.symbol name) e => exact Judges.pure
  | .keyed key (.literal l) e =>
    exact .congr (.bind (l.judges_toValue lines) .pure) (and_iff_left trivial)

theorem judges_readArgs (lines : Lines) (seen : List String) (args : List Argument) :
    Judges (readArgs lines seen args) (ArgsSound args ∧ ∀ a ∈ args, a.arg.key ∉ seen)
      (args.map Argument.arg) := by
  induction args generalizing seen with
  | nil => exact Judges.pure.congr (by simpa using ⟨by simp, by simp⟩)
  | cons a rest ih =>
    refine .congr (.bind (a.judges_toArg lines) (.guard (.bind (ih (a.arg.key :: seen)) .pure))) ?_
    constructor
    · rintro ⟨ha, hseen, ⟨hrest, hkeys⟩, -⟩
      refine ⟨⟨List.forall_mem_cons.mpr ⟨ha, hrest.accepted⟩, ?_⟩,
        List.forall_mem_cons.mpr ⟨hseen, fun b hb h => hkeys b hb (List.mem_cons_of_mem _ h)⟩⟩
      refine List.nodup_cons.mpr ⟨fun h => ?_, hrest.keys⟩
      obtain ⟨b, hb, hk⟩ := List.mem_map.mp h
      exact hkeys b hb (hk ▸ List.mem_cons_self)
    · rintro ⟨⟨hacc, hkeys⟩, hseen⟩
      obtain ⟨ha, hrest⟩ := List.forall_mem_cons.mp hacc
      obtain ⟨hnot, hkeys⟩ := List.nodup_cons.mp hkeys
      obtain ⟨hs, hseen⟩ := List.forall_mem_cons.mp hseen
      refine ⟨ha, hs, ⟨⟨hrest, hkeys⟩, fun b hb => ?_⟩, trivial⟩
      rw [List.mem_cons, not_or]
      exact ⟨fun h => hnot (List.mem_map.mpr ⟨b, hb, h⟩), hseen b hb⟩

theorem judges_readBindings (lines : Lines) (seen : List Binding) (phrases : List BindingPhrase) :
    Judges (readBindings lines seen phrases)
      (BindingsSound phrases ∧ ∀ p ∈ phrases,
        p.binding.list ∉ seen.map Binding.list ∧ p.binding.element ∉ seen.map Binding.element)
      (phrases.map BindingPhrase.binding) := by
  induction phrases generalizing seen with
  | nil => exact Judges.pure.congr (by simpa using ⟨by simp, by simp⟩)
  | cons p rest ih =>
    refine .congr (.guard (.guard (.bind (ih (p.binding :: seen)) .pure))) ?_
    rw [List.forall_mem_cons]
    simp only [List.map_cons, List.mem_cons, not_or, and_true]
    constructor
    · rintro ⟨hlist, helement, hrest, hseen⟩
      refine ⟨⟨?_, ?_⟩, ⟨hlist, helement⟩, fun q hq => ⟨(hseen q hq).1.2, (hseen q hq).2.2⟩⟩
      · refine List.nodup_cons.mpr ⟨fun h => ?_, hrest.lists⟩
        obtain ⟨q, hq, he⟩ := List.mem_map.mp h
        exact (hseen q hq).1.1 he
      · refine List.nodup_cons.mpr ⟨fun h => ?_, hrest.elements⟩
        obtain ⟨q, hq, he⟩ := List.mem_map.mp h
        exact (hseen q hq).2.1 he
    · rintro ⟨⟨hlists, helements⟩, ⟨hlist, helement⟩, hseen⟩
      obtain ⟨hnl, hlists⟩ := List.nodup_cons.mp hlists
      obtain ⟨hne, helements⟩ := List.nodup_cons.mp helements
      exact ⟨hlist, helement, ⟨hlists, helements⟩, fun q hq =>
        ⟨⟨fun h => hnl (List.mem_map.mpr ⟨q, hq, h⟩), (hseen q hq).1⟩,
          fun h => hne (List.mem_map.mpr ⟨q, hq, h⟩), (hseen q hq).2⟩⟩

theorem judges_readParameters (lines : Lines) (seen : List String) (ps : List Parameter) :
    Judges (readParameters lines seen ps)
      ((ps.map fun p => String.ofList p.name).Nodup ∧ ∀ p ∈ ps, String.ofList p.name ∉ seen)
      (ps.map fun p => String.ofList p.name) := by
  induction ps generalizing seen with
  | nil => exact Judges.pure.congr (by simp)
  | cons p rest ih =>
    refine .congr (.guard (.bind (ih (String.ofList p.name :: seen)) .pure)) ?_
    simp only [List.map_cons, List.nodup_cons, List.mem_cons, not_or, List.mem_map, not_exists,
      not_and, and_true, forall_and]
    grind

/-! ### Statements -/

mutual

/-- A batch has a binding, no block is empty, and nothing is given or bound twice. -/
def Statement.Sound : Statement → Prop
  | .batch bindings body _ => bindings ≠ [] ∧ BindingsSound bindings ∧ body.Sound
  | .call _ args none _ => ArgsSound args
  | .call _ args (some block) _ => ArgsSound args ∧ block.Sound

def Block.Sound : Block → Prop
  | .mk statements _ => statements ≠ [] ∧ AllSound statements

def AllSound : List Statement → Prop
  | [] => True
  | s :: rest => s.Sound ∧ AllSound rest

end

/-- One step stands for itself, more are a sequence. -/
def joined (span : Span) : List Node → Node
  | [n] => n
  | steps => .sequence steps span

mutual

def Statement.node (lines : Lines) : Statement → Node
  | .batch bindings body e =>
    .batch (bindings.map BindingPhrase.binding) (body.node lines) (e.span lines)
  | .call name args none e =>
    .call (String.ofList name) (args.map Argument.arg) none (e.span lines)
  | .call name args (some block) e =>
    .call (String.ofList name) (args.map Argument.arg) (some (block.node lines)) (e.span lines)

def Block.node (lines : Lines) : Block → Node
  | .mk statements e => joined (e.span lines) (nodesOf lines statements)

def nodesOf (lines : Lines) : List Statement → List Node
  | [] => []
  | s :: rest => s.node lines :: nodesOf lines rest

end

theorem nodesOf_eq_nil_iff {lines : Lines} {statements : List Statement} :
    nodesOf lines statements = [] ↔ statements = [] := by
  cases statements <;> simp [nodesOf]

theorem judges_assemble {holder : Holder} {span : Span} {nodes : List Node} :
    Judges (assemble holder span nodes) (nodes ≠ []) (joined span nodes) := by
  match nodes with
  | [] => exact ⟨fun h => absurd rfl h, fun _ => ⟨_, _, rfl⟩⟩
  | [n] => exact Judges.pure.congr (by simp)
  | n :: m :: rest => exact Judges.pure.congr (by simp)

mutual

theorem Statement.judges_toNode (lines : Lines) :
    (s : Statement) → Judges (s.toNode lines) s.Sound (s.node lines)
  | .batch phrases body e => by
    rw [Statement.toNode, Statement.Sound, Statement.node]
    refine .congr (.bind (judges_readBindings lines [] phrases)
      (.bind (body.judges_toNode lines .batch) (.guard .pure))) ?_
    simp only [List.map_nil, List.not_mem_nil, not_false_eq_true, and_self, implies_true, and_true,
      List.isEmpty_map, List.isEmpty_iff]
    grind
  | .call name args none e => by
    rw [Statement.toNode, Statement.Sound, Statement.node]
    exact .congr (.bind (judges_readArgs lines [] args) .pure) (by simp)
  | .call name args (some block) e => by
    rw [Statement.toNode, Statement.Sound, Statement.node]
    exact .congr (.bind (judges_readArgs lines [] args) (.bind (block.judges_toNode lines _) .pure))
      (by simp)

theorem Block.judges_toNode (lines : Lines) (holder : Holder) :
    (b : Block) → Judges (b.toNode lines holder) b.Sound (b.node lines)
  | .mk statements e => by
    rw [Block.toNode, Block.Sound, Block.node]
    exact .congr (.bind (judges_toNodes lines statements) judges_assemble)
      (by rw [Ne, nodesOf_eq_nil_iff, and_comm])

theorem judges_toNodes (lines : Lines) :
    (statements : List Statement) →
      Judges (toNodes lines statements) (AllSound statements) (nodesOf lines statements)
  | [] => Judges.pure
  | s :: rest => by
    rw [toNodes, AllSound, nodesOf]
    refine .congr (.bind (s.judges_toNode lines) (.bind (judges_toNodes lines rest) .pure)) ?_
    rw [and_true]

end

/-! ### Files -/

structure DefinitionPhrase.Sound (p : DefinitionPhrase) : Prop where
  parameters : (p.parameters.map fun q => String.ofList q.name).Nodup
  body : p.body.Sound

def DefinitionPhrase.definition (lines : Lines) (p : DefinitionPhrase) : Definition where
  name := String.ofList p.name
  parameters := p.parameters.map fun q => String.ofList q.name
  body := p.body.node lines
  version := none
  span := p.extent.span lines

def Item.Sound : Item → Prop
  | .workers _ => True
  | .definition phrase => phrase.Sound

/-- The workers and the definitions of a file, each in their order. -/
def fileOf (lines : Lines) (items : List Item) : DefinitionFile where
  workers := items.flatMap fun
    | .workers names => names.map String.ofList
    | .definition _ => []
  definitions := items.filterMap fun
    | .workers _ => none
    | .definition phrase => some (phrase.definition lines)

theorem DefinitionPhrase.judges_toDefinition (lines : Lines) (p : DefinitionPhrase) :
    Judges (p.toDefinition lines) p.Sound (p.definition lines) := by
  refine .congr (.bind (judges_readParameters lines [] p.parameters)
    (.bind (p.body.judges_toNode lines _) .pure)) ?_
  constructor
  · rintro ⟨⟨hps, -⟩, hb, -⟩
    exact ⟨hps, hb⟩
  · rintro ⟨hps, hb⟩
    exact ⟨⟨hps, by simp⟩, hb, trivial⟩

theorem judges_readItems (lines : Lines) (items : List Item) :
    Judges (readItems lines items) (∀ item ∈ items, item.Sound) (fileOf lines items) := by
  induction items with
  | nil => exact Judges.pure.congr (by simp)
  | cons item rest ih =>
    cases item with
    | workers names => exact .congr (.bind ih .pure) (by simp [Item.Sound])
    | definition phrase =>
      exact .congr (.bind (phrase.judges_toDefinition lines) (.bind ih .pure))
        (by simp [Item.Sound])

end Workflow.Surface
