import Workflow.Proofs.Surface.Named
import Workflow.Proofs.Surface.Origins

/-!
What every tree is like that is read from a text: which nodes it has, how many parts they have and
which of these differ, and what stands where a name or a literal does.
-/

namespace Workflow

open Surface (IsIdentifier IsName)

namespace Value

mutual

/-- There is no object in a value. -/
def IsPlain : Value → Prop
  | null | bool _ | number _ | string _ => True
  | array items => ArePlain items
  | object _ => False

def ArePlain : List Value → Prop
  | [] => True
  | v :: vs => v.IsPlain ∧ ArePlain vs

end

end Value

structure Arg.WellFormed (a : Arg) : Prop where
  key : IsIdentifier a.key.toList
  param : ∀ name, a.source = .param name → IsIdentifier name.toList
  literal : ∀ v, a.source = .literal v → v.IsPlain

structure Binding.WellFormed (b : Binding) : Prop where
  list : IsIdentifier b.list.toList
  element : IsIdentifier b.element.toList

namespace Node

/-- Whether a node is a sequence. -/
def isSequence : Node → Bool
  | sequence _ _ => true
  | _ => false

/-- What a node is like that was read from a text. -/
def WellFormed : Node → Prop
  | leaf _ _ _ => False
  | sequence steps _ => 2 ≤ steps.length ∧ ∀ n ∈ steps, n.isSequence = false
  | batch bindings _ _ => bindings ≠ [] ∧ (bindings.map Binding.list).Nodup ∧
      (bindings.map Binding.element).Nodup ∧ ∀ b ∈ bindings, b.WellFormed
  | call name args _ _ => IsName name.toList ∧ (args.map Arg.key).Nodup ∧
      ∀ a ∈ args, a.WellFormed

end Node

structure Definition.WellFormed (d : Definition) : Prop where
  name : IsName d.name.toList
  parameters : ∀ p ∈ d.parameters, IsIdentifier p.toList
  nodup : d.parameters.Nodup
  body : d.body.All Node.WellFormed

namespace Surface

open Syntax

/-! ### Literals -/

theorem isPlain_of_readToken {token : List Char} {v : Value} (h : readToken token = .ok v) :
    v.IsPlain := by
  rw [readToken.eq_def] at h
  split at h
  · obtain ⟨⟨s, rest⟩, -, rfl⟩ := Except.map_eq_ok_iff.mp h
    trivial
  · obtain ⟨⟨n, rest⟩, -, rfl⟩ := Except.map_eq_ok_iff.mp h
    trivial

mutual

theorem Literal.isPlain_value : (l : Literal) → l.value.IsPlain
  | .token text e => by
    rw [Literal.value]
    cases h : readToken text with
    | ok v => exact isPlain_of_readToken h
    | error r => trivial
  | .bool b => trivial
  | .nil => trivial
  | .array items => by
    rw [Literal.value, Value.IsPlain]
    exact Literal.arePlain_values items

theorem Literal.arePlain_values : (ls : List Literal) → Value.ArePlain (Literal.values ls)
  | [] => trivial
  | l :: ls => by
    rw [Literal.values, Value.ArePlain]
    exact ⟨l.isPlain_value, Literal.arePlain_values ls⟩

end

/-! ### Arguments and bindings -/

variable {text : List Char} {m : Phrase} {lines : Lines}

/-- What is said of the characters of a word holds of the word as a string. -/
theorem of_chars {P : List Char → Prop} {w : List Char} (h : P w) : P (String.ofList w).toList := by
  rwa [String.toList_ofList]

theorem arg_wellFormed {a : Argument} (hm : Standing text m) (h : argument? m = some a) :
    a.arg.WellFormed := by
  unfold argument? at h
  split at h
  · obtain rfl := Option.some.inj h
    have hname := of_chars (isIdentifier_symbol hm.self rfl)
    refine ⟨hname, ?_, fun _ hv => by cases hv⟩
    rintro _ ⟨⟩
    exact hname
  · rename_i key value
    obtain ⟨v, hv, h⟩ := Option.bind_eq_some_iff.mp h
    obtain rfl := Option.some.inj h
    obtain ⟨k, rest, hinner, hk⟩ := key_of_keywordArg hm.self rfl
    obtain ⟨rfl, -⟩ := List.cons.inj hinner
    have hkey := of_chars (isIdentifier_key (hm.inner List.mem_cons_self).self hk)
    have hvalue := (hm.inner (List.mem_cons_of_mem _ List.mem_cons_self)).self
    unfold argValue? at hv
    split at hv
    · obtain rfl := Option.some.inj hv
      have hname := of_chars (isIdentifier_symbol hvalue rfl)
      refine ⟨hkey, ?_, fun _ hv => by cases hv⟩
      rintro _ ⟨⟩
      exact hname
    · obtain ⟨l, -, rfl⟩ := Option.map_eq_some_iff.mp hv
      refine ⟨hkey, (fun _ hn => by cases hn), ?_⟩
      rintro _ ⟨⟩
      exact l.isPlain_value
  · cases h

theorem binding_wellFormed {b : BindingPhrase} (hm : Standing text m)
    (h : binding? m = some b) : b.binding.WellFormed := by
  unfold binding? at h
  split at h
  · obtain rfl := Option.some.inj h
    obtain ⟨list, element, hinner, hlist, helement⟩ := parts_of_binding hm.self rfl
    rw [Match.inner] at hinner
    cases hinner
    have hfirst := isIdentifier_key (hm.inner List.mem_cons_self).self hlist
    have hsecond := isIdentifier_symbol
      (hm.inner (List.mem_cons_of_mem _ List.mem_cons_self)).self helement
    exact ⟨of_chars hfirst, of_chars hsecond⟩
  · cases h

theorem parameter_identifier {q : Parameter} (hm : Standing text m)
    (h : parameter? m = some q) : IsIdentifier q.name := by
  unfold parameter? at h
  split at h
  · obtain rfl := Option.some.inj h
    exact isIdentifier_symbol hm.self rfl
  · cases h

/-- What holds of all that is told holds of the things that are told within a list. -/
theorem items_of_standing {α : Type} {view : Phrase → Option α} {xs : List α} {P : α → Prop}
    (hm : Standing text m) (h : Items view m xs)
    (hP : ∀ k x, Standing text k → view k = some x → P x) : ∀ x ∈ xs, P x := by
  intro x hx
  obtain ⟨l, hl, k, hk, hview⟩ := h x hx
  exact hP k x ((hm.inner hl).inner hk) hview

/-! ### Statements -/

theorem wellFormed_of_statement {s : Statement} (hm : Standing text m) (hs : StatementOf m s)
    (hsound : s.Sound) : (s.node lines).WellFormed := by
  cases hs with
  | @batch bindings body b hr hitems hbody hb =>
    rw [Statement.Sound] at hsound
    obtain ⟨hne, hdistinct, -⟩ := hsound
    have hall := items_of_standing hm hitems fun _ _ hk => binding_wellFormed hk
    refine ⟨by simpa using hne, ?_, ?_, List.forall_mem_map.mpr hall⟩
    · rw [List.map_map]
      exact hdistinct.lists
    · rw [List.map_map]
      exact hdistinct.elements
  | @call name rest args nested hr hinner hitems hn =>
    obtain ⟨k, rest', hinner', hk, -⟩ := name_of_callStmt hm.self hr
    obtain ⟨rfl, -⟩ := List.cons.inj (hinner'.symm.trans hinner)
    have hname := of_chars (isName_of_stands (hm.inner (hinner ▸ List.mem_cons_self)).self hk)
    have hall := items_of_standing hm hitems fun _ _ hk => arg_wellFormed hk
    have hkeys : ((args.map Argument.arg).map Arg.key).Nodup := by
      rw [List.map_map]
      cases nested with
      | none => exact hsound.keys
      | some b =>
        rw [Statement.Sound] at hsound
        exact hsound.1.keys
    cases nested with
    | none => exact ⟨hname, hkeys, List.forall_mem_map.mpr hall⟩
    | some b => exact ⟨hname, hkeys, List.forall_mem_map.mpr hall⟩

theorem isSequence_of_statement (s : Statement) : (s.node lines).isSequence = false := by
  cases s with
  | batch => rfl
  | call name args nested => cases nested <;> rfl

theorem wellFormed_of_block {b : Block} (hm : Standing text m) (hb : block? m = some b)
    (hs : b.Sound) : (b.node lines).All Node.WellFormed := by
  refine (all_of_standing (fun _ _ hm hs hsound => wellFormed_of_statement hm hs hsound)
    (fun _ ss _ _ hlen _ => ?_) m hm).2 b hb hs
  refine ⟨by rwa [List.length_map], List.forall_mem_map.mpr fun s _ => ?_⟩
  exact isSequence_of_statement s

/-! ### Files -/

theorem wellFormed_of_definition {phrase : DefinitionPhrase} (hm : Standing text m)
    (h : item? m = some (.definition phrase)) (hs : phrase.Sound) :
    (phrase.definition lines).WellFormed := by
  cases itemOf h with
  | @definition word name body rest parameters b hr hinner hitems hbody hb =>
    obtain ⟨k, n, rest', hinner', hn⟩ := name_of_definition hm.self hr
    obtain ⟨-, htail⟩ := List.cons.inj (hinner'.symm.trans hinner)
    obtain ⟨rfl, -⟩ := List.cons.inj htail
    have hin : n ∈ m.inner := hinner ▸ List.mem_cons_of_mem _ List.mem_cons_self
    have hname := of_chars (isName_of_stands (hm.inner hin).self hn)
    have hparameters := items_of_standing hm hitems fun _ _ hk => parameter_identifier hk
    refine ⟨hname, List.forall_mem_map.mpr fun q hq => ?_, hs.parameters,
      wellFormed_of_block (hm.inner hbody) hb hs.body⟩
    exact of_chars (hparameters q hq)

theorem names_of_workers {names : List (List Char)} (hm : Standing text m)
    (h : item? m = some (.workers names)) : ∀ n ∈ names, IsName n := by
  cases itemOf h with
  | @workers word ns hr hinner =>
    obtain ⟨k, ns', hinner', hall⟩ := names_of_workersDecl hm.self hr
    obtain ⟨-, rfl⟩ := List.cons.inj (hinner'.symm.trans hinner)
    refine List.forall_mem_map.mpr fun n hn => ?_
    exact isName_of_stands (hm.inner (hinner ▸ List.mem_cons_of_mem _ hn)).self (hall n hn)

end Surface

open Surface Syntax

/-- Every node of an accepted text is well-formed, and so are the definitions and the names of
workers in a definition file. -/
theorem parsed_wellFormed (source : String) :
    (∀ n, parseBody source = .ok n → n.All Node.WellFormed) ∧
    ∀ file, parseFile source = .ok file → (∀ d ∈ file.definitions, d.WellFormed) ∧
      ∀ w ∈ file.workers, IsName w.toList := by
  constructor
  · intro n h
    obtain ⟨m, b, hm, hb, hs, rfl⟩ := standing_of_parseBody h
    exact wellFormed_of_block hm hb hs
  · intro file h
    obtain ⟨m, items, hm, hitems, hs, rfl⟩ := standing_of_parseFile h
    constructor
    · intro d hd
      obtain ⟨k, phrase, hk, hview, hsound, rfl⟩ := definition_of_mem hm hitems hs hd
      exact wellFormed_of_definition hk hview hsound
    · intro w hw
      obtain ⟨ks, hks, hall⟩ := forall₂_of_items hitems
      obtain ⟨i, hi, hiw⟩ := List.mem_flatMap.mp hw
      obtain ⟨k, hk, hview⟩ := mem_of_forall₂ hall hi
      cases i with
      | definition phrase => cases hiw
      | workers names =>
        obtain ⟨n, hn, rfl⟩ := List.mem_map.mp hiw
        exact of_chars (names_of_workers (hm.inner (hks.mem hk)) hview n hn)

/-- A batch and a call, with a name of two segments and a literal of several parts. -/
theorem box_wellFormed :
    (∃ n, parseBody "batch ids: :id do Box::Open id: :id, how: [1, [nil]] end Close" = .ok n ∧
      n.All Node.WellFormed ∧ n.invoked = ["Box::Open", "Close"]) ∧
    ∃ file, parseFile "workers Box::Open superworker Use :id do Box::Open id: :id end" =
        .ok file ∧
      (∀ d ∈ file.definitions, d.WellFormed) ∧ file.definitions.map Definition.name = ["Use"] := by
  constructor
  · obtain ⟨n, hn, hnames⟩ : ∃ n,
        parseBody "batch ids: :id do Box::Open id: :id, how: [1, [nil]] end Close" = .ok n ∧
          n.invoked = ["Box::Open", "Close"] :=
      Except.exists_of_toOption_map _ (by decide +kernel)
    exact ⟨n, hn, (parsed_wellFormed _).1 n hn, hnames⟩
  · obtain ⟨file, hfile, hnames⟩ : ∃ file,
        parseFile "workers Box::Open superworker Use :id do Box::Open id: :id end" = .ok file ∧
          file.definitions.map Definition.name = ["Use"] :=
      Except.exists_of_toOption_map _ (by decide +kernel)
    exact ⟨file, hfile, ((parsed_wellFormed _).2 file hfile).1, hnames⟩

end Workflow
