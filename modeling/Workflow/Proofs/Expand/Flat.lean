import Workflow.Proofs.Data.SortedMap
import Workflow.Proofs.Forest.Table
import Workflow.Proofs.Node.Flat

/-!
Sequences within sequences compile to the same jobs as their steps do, in the tree itself and in
the superworkers that it calls.
-/

namespace Workflow

/-! ### Definitions and registries -/

def Definition.flat (d : Definition) : Definition := { d with body := d.body.flat }

namespace SortedMap

variable {κ α : Type} [Key κ]

/-- The map with the same keys and other values. -/
def mapValues (f : α → α) (m : SortedMap κ α) : SortedMap κ α where
  entries := m.entries.map fun e => (e.1, f e.2)
  ascending := by
    rw [Entries.Ascending, List.pairwise_map]
    exact m.ascending

theorem get?_mapValues [DecidableEq κ] (f : α → α) (m : SortedMap κ α) (k : κ) :
    (m.mapValues f).get? k = (m.get? k).map f := Entries.get?_map

end SortedMap

namespace Registry

variable (r : Registry)

/-- The registry with flat bodies. -/
def flat : Registry := { r with definitions := r.definitions.mapValues Definition.flat }

/-- Every sequence in the body of a superworker has steps. -/
def HasSteps : Prop := ∀ name d, r.get? name = some d → d.body.All Node.HasSteps

theorem get?_flat (name : String) : r.flat.get? name = (r.get? name).map Definition.flat :=
  SortedMap.get?_mapValues ..

theorem hasWorker_flat (name : String) : r.flat.hasWorker name = r.hasWorker name := rfl

theorem resolve_flat (name : String) :
    r.flat.resolve name = (r.resolve name).map fun
      | .worker => .worker
      | .superworker d => .superworker d.flat := by
  rw [resolve, resolve, get?_flat, hasWorker_flat]
  cases r.get? name with
  | some d => rfl
  | none => cases r.hasWorker name <;> rfl

end Registry

/-! ### Names -/

section Names

variable (r : Registry)

theorem superworkersOf_append (ns ms : List Node) :
    superworkersOf r (ns ++ ms) = (do
      let called ← superworkersOf r ns
      let more ← superworkersOf r ms
      pure (called ++ more)) := by
  induction ns with
  | nil =>
    rw [List.nil_append]
    cases superworkersOf r ms <;> rfl
  | cons n ns ih =>
    rw [List.cons_append]
    cases n with
    | leaf worker args span =>
      simp only [superworkersOf]
      split
      · exact ih
      · rfl
    | call name args nested span =>
      simp only [superworkersOf]
      split
      · rfl
      · exact ih
      · rw [ih]
        cases superworkersOf r ns with
        | error e => rfl
        | ok called => cases superworkersOf r ms <;> rfl
    | sequence => exact ih
    | batch => exact ih

/-- Which names the nodes of a list call does not depend on what the bodies look like. -/
theorem superworkersOf_flat_registry (ns : List Node) :
    superworkersOf r.flat ns = superworkersOf r ns := by
  induction ns with
  | nil => rfl
  | cons n ns ih =>
    cases n with
    | leaf worker args span =>
      rw [superworkersOf, superworkersOf, ih]
      rfl
    | call name args nested span =>
      rw [superworkersOf, superworkersOf, ih, Registry.resolve_flat]
      rcases r.resolve name with _ | _ | d <;> rfl
    | sequence => exact ih
    | batch => exact ih

theorem superworkersOf_joined (span : Span) (ns : List Node) :
    superworkersOf r (Surface.joined span ns).all = superworkersOf r (Node.allOf ns) := by
  match ns with
  | [] => rfl
  | [n] => rw [Surface.joined, Node.allOf, Node.allOf, List.append_nil]
  | n :: m :: rest => rfl

theorem superworkersOf_steps (n : Node) :
    superworkersOf r (Node.allOf n.steps) = superworkersOf r n.all := by
  rcases n.eq_sequence_or_steps with ⟨steps, span, rfl⟩ | hn
  · rfl
  · rw [hn, Node.allOf, Node.allOf, List.append_nil]

theorem allOf_append (ns ms : List Node) :
    Node.allOf (ns ++ ms) = Node.allOf ns ++ Node.allOf ms := by
  induction ns with
  | nil => rfl
  | cons n ns ih => rw [List.cons_append, Node.allOf, ih, Node.allOf, List.append_assoc]

mutual

theorem superworkersOf_flat : (n : Node) →
    superworkersOf r n.flat.all = superworkersOf r n.all
  | .leaf worker args span => rfl
  | .sequence steps span => by
    rw [Node.flat, superworkersOf_joined, superworkersOf_flatSteps steps]
    rfl
  | .batch bindings body span => superworkersOf_flat body
  | .call name args none span => rfl
  | .call name args (some body) span => by
    rw [Node.flat, Node.all, Node.all, superworkersOf, superworkersOf, superworkersOf_flat body]

theorem superworkersOf_flatSteps : (ns : List Node) →
    superworkersOf r (Node.allOf (Node.flatSteps ns)) = superworkersOf r (Node.allOf ns)
  | [] => rfl
  | n :: ns => by
    rw [Node.flatSteps, allOf_append, superworkersOf_append, superworkersOf_steps,
      superworkersOf_flat n, superworkersOf_flatSteps ns, Node.allOf, superworkersOf_append]

end

theorem checkNames_worker {seen rest : List String} {name : String} (hs : name ∉ seen)
    (hd : r.get? name = none) : checkNames r seen (name :: rest) = checkNames r seen rest := by
  rw [checkNames, dif_neg hs]
  split
  · rfl
  · rename_i d hd'
    rw [hd] at hd'
    cases hd'

theorem checkNames_superworker {seen rest : List String} {name : String} {d : Definition}
    (hs : name ∉ seen) (hd : r.get? name = some d) :
    checkNames r seen (name :: rest) = (superworkersOf r d.body.all).bind fun called =>
      checkNames r (name :: seen) (called ++ rest) := by
  rw [checkNames, dif_neg hs]
  split
  · rename_i hd'
    rw [hd] at hd'
    cases hd'
  · rename_i d' hd'
    cases hd.symm.trans hd'
    cases superworkersOf r d.body.all <;> rfl

theorem checkNames_flat (seen pending : List String) :
    checkNames r.flat seen pending = checkNames r seen pending := by
  have hbody (d : Definition) : superworkersOf r.flat d.flat.body.all =
      superworkersOf r d.body.all := by
    rw [superworkersOf_flat_registry]
    exact superworkersOf_flat r d.body
  fun_induction checkNames r seen pending with
  | case1 seen => rw [checkNames]
  | case2 seen name rest hs ih => rw [checkNames, dif_pos hs, ih]
  | case3 seen name rest hs hd ih =>
    have hd' : r.flat.get? name = none := by rw [Registry.get?_flat, hd, Option.map_none]
    rw [checkNames_worker _ hs hd', ih]
  | case4 seen name rest hs d hd e he =>
    have hd' : r.flat.get? name = some d.flat := by rw [Registry.get?_flat, hd, Option.map_some]
    rw [checkNames_superworker _ hs hd', hbody, he]
    rfl
  | case5 seen name rest hs d hd called hc ih =>
    have hd' : r.flat.get? name = some d.flat := by rw [Registry.get?_flat, hd, Option.map_some]
    rw [checkNames_superworker _ hs hd', hbody, hc]
    exact ih

theorem resolveNames_flat (n : Node) : resolveNames r.flat n.flat = resolveNames r n := by
  simp only [resolveNames, superworkersOf_flat_registry, superworkersOf_flat, checkNames_flat]

end Names

/-! ### Expansion -/

section Expansion

variable {r : Registry} {opened : List String} {s : Scope}

theorem expandAll_append (ns ms : List Node) :
    expandAll r opened s (ns ++ ms) = (do
      let f ← expandAll r opened s ns
      let g ← expandAll r opened s ms
      pure (f ++ g)) := by
  induction ns with
  | nil =>
    rw [List.nil_append, expandAll]
    cases expandAll r opened s ms <;> rfl
  | cons n ns ih =>
    rw [List.cons_append, expandAll, expandAll, ih]
    simp only [bind_assoc, pure_bind, List.append_assoc]

theorem expandAll_singleton (n : Node) : expandAll r opened s [n] = expand r opened s n := by
  rw [expandAll, expandAll]
  cases expand r opened s n with
  | error e => rfl
  | ok f => exact congrArg Except.ok (List.append_nil f)

theorem expand_sequence {steps : List Node} {span : Span} (h : steps ≠ []) :
    expand r opened s (.sequence steps span) = expandAll r opened s steps := by
  rw [expand, if_neg (by simpa using h)]

theorem expand_joined (span : Span) {ns : List Node} (hne : ns ≠ []) :
    expand r opened s (Surface.joined span ns) = expandAll r opened s ns := by
  match ns with
  | [] => exact absurd rfl hne
  | [n] => rw [Surface.joined, expandAll_singleton]
  | n :: m :: rest => exact expand_sequence hne

theorem expandAll_steps {n : Node} (h : n.steps ≠ []) :
    expandAll r opened s n.steps = expand r opened s n := by
  rcases n.eq_sequence_or_steps with ⟨steps, span, rfl⟩ | hn
  · exact (expand_sequence h).symm
  · rw [hn, expandAll_singleton]

theorem expandAll_flatSteps {ns : List Node} (h : ∀ n ∈ ns, n.All Node.HasSteps)
    (ih : ∀ n ∈ ns, expand r.flat opened s n.flat = expand r opened s n) :
    expandAll r.flat opened s (Node.flatSteps ns) = expandAll r opened s ns := by
  induction ns with
  | nil => rw [Node.flatSteps, expandAll, expandAll]
  | cons n ns ihs =>
    obtain ⟨hn, hns⟩ := List.forall_mem_cons.mp h
    have hrest := ihs hns fun m hm => ih m (List.mem_cons_of_mem _ hm)
    have hfirst := ih n List.mem_cons_self
    rw [Node.flatSteps, expandAll_append, expandAll, hrest, ← hfirst,
      expandAll_steps (Node.flat_all_flat n hn).self.steps_ne_nil]

theorem expand_flat {n : Node} (hr : r.HasSteps) (hn : n.All Node.HasSteps) :
    expand r.flat opened s n.flat = expand r opened s n := by
  induction opened, n using expansion_induction r generalizing s with
  | sequence opened steps span ih =>
    obtain ⟨hne, hsteps⟩ := Node.all_sequence_iff.mp hn
    rw [Node.flat, expand_joined span (Node.flatSteps_ne_nil steps hne hsteps),
      expandAll_flatSteps hsteps fun n hstep => ih n hstep (hsteps n hstep), expand_sequence hne]
  | leaf opened worker args span =>
    rw [Node.flat, expand, expand]
    rfl
  | batch opened bindings body span ih =>
    have hbody : ∀ s, expand r.flat opened s body.flat = expand r opened s body :=
      fun s => ih (Node.all_batch_iff.mp hn).2
    rw [Node.flat, expand, expand]
    simp only [hbody]
  | call opened name args nested span ihd ihn =>
    have hnested : (Node.call name args nested span).flat =
        .call name args (nested.map Node.flat) span := by cases nested <;> rfl
    have hblock : expandBlock r.flat opened s (nested.map Node.flat) =
        expandBlock r opened s nested := by
      cases nested with
      | none => rfl
      | some body => exact ihn body rfl ((Node.all_call_iff.mp hn).2 body rfl)
    have hd' := Registry.get?_flat r name
    rw [hnested]
    cases hd : r.get? name with
    | none =>
      rw [hd] at hd'
      rw [expand_worker hd, expand_worker hd', hblock]
      rfl
    | some d =>
      rw [hd] at hd'
      rw [expand_superworker hd, expand_superworker hd', hblock]
      by_cases ho : name ∈ opened
      · simp only [if_pos ho]
        rfl
      · have hbody : ∀ s, expand r.flat (name :: opened) s d.flat.body =
            expand r (name :: opened) s d.body := fun s => ihd d hd ho (hr name d hd)
        simp only [hbody]
        rfl

end Expansion

/-- Where no sequence is empty, flattening a tree and the bodies of all superworkers leaves only
sequences of several steps that are none, and does not change what the tree compiles to or why it
cannot be compiled. -/
theorem compile_flat {r : Registry} {n : Node} (hr : r.HasSteps) (hn : n.All Node.HasSteps) :
    n.flat.All Node.Flat ∧ (∀ name d, r.flat.get? name = some d → d.body.All Node.Flat) ∧
      ∀ args, compile r.flat args n.flat = compile r args n := by
  refine ⟨Node.flat_all_flat n hn, ?_, fun args => ?_⟩
  · intro name d hd
    rw [Registry.get?_flat] at hd
    obtain ⟨d', hd', rfl⟩ := Option.map_eq_some_iff.mp hd
    exact Node.flat_all_flat d'.body (hr name d' hd')
  · rw [compile_eq_expand, compile_eq_expand, resolveNames_flat, expand_flat hr hn]

def remind : Node := .leaf "Remind" [.param "team"] Span.zero

def remindTwice : Node := .sequence [.sequence [remind] Span.zero, remind] Span.zero

/-- A superworker that reminds twice. -/
def reminders : Registry where
  definitions := SortedMap.ofList
    [("RemindTwice", ⟨"RemindTwice", ["team"], remindTwice, none, Span.zero⟩)]
  workers := SortedMap.ofList [("Remind", ())]

/-- Calls of the superworker, alone and for each team, with a block below. -/
def remindAll : Node :=
  .sequence [
    .call "RemindTwice" [.param "team"]
      (some (.sequence [remindTwice, remind] Span.zero)) Span.zero,
    .sequence [.batch [⟨"teams", "team"⟩] (.sequence [remindTwice] Span.zero) Span.zero]
      Span.zero] Span.zero

def nightAndDay : Scope :=
  SortedMap.ofList [("team", .string "a"), ("teams", .array [.string "a", .string "b"])]

theorem remindAll_flat : reminders.HasSteps ∧ remindAll.All Node.HasSteps ∧
    remindAll.flat.All Node.Flat ∧ remindAll.flat.all.length < remindAll.all.length ∧
    compile reminders.flat nightAndDay remindAll.flat = compile reminders nightAndDay remindAll ∧
    (compile reminders nightAndDay remindAll).isOk = true := by
  have htwice : remindTwice.All Node.HasSteps := by
    simp [remindTwice, remind, Node.all_sequence_iff, Node.all_leaf_iff, Node.HasSteps]
  have hr : reminders.HasSteps := by
    intro name d hd
    have hmem : (name, d) ∈ reminders.definitions.entries := Entries.mem_of_get? hd
    cases List.mem_singleton.mp hmem
    exact htwice
  have hn : remindAll.All Node.HasSteps := by
    simp [remindAll, remind, Node.all_sequence_iff, Node.all_call_iff, Node.all_batch_iff,
      Node.all_leaf_iff, Node.HasSteps, htwice]
  obtain ⟨hflat, -, hsame⟩ := compile_flat hr hn
  have hok : (compile reminders nightAndDay remindAll).isOk = true := by
    have hnames : resolveNames reminders remindAll = .ok () := by cbv
    have hd : reminders.get? "RemindTwice" =
        some ⟨"RemindTwice", ["team"], remindTwice, none, Span.zero⟩ := rfl
    rw [compile_eq_expand, hnames]
    simp only [remindAll, remindTwice, remind, expand.eq_1, expand.eq_2, expand.eq_3, expandAll,
      expandBlock, expand_superworker hd]
    rfl
  exact ⟨hr, hn, hflat, by decide +kernel, hsame nightAndDay, hok⟩

-- An empty sequence among the steps would be lost, and with it what is wrong with the tree.
example :
    let n : Node := .sequence [.sequence [] Span.zero, remind] Span.zero
    compile reminders nightAndDay n = .error (.misshapen .noSteps) ∧
      (compile reminders nightAndDay n.flat).isOk = true := by
  constructor
  · cbv
  · cbv

end Workflow
