import Mathlib.Data.List.Forall2
import Workflow.Proofs.Data.Except
import Workflow.Proofs.Forest.Expansion

/-!
The expansion of a tree by rules, one for each kind of node. A forest follows by the rules if and
only if the expansion gives it.
-/

namespace Workflow

/-- The value of an argument where `s` is bound. -/
def Arg.HasValue (s : Scope) (a : Arg) (v : Value) : Prop :=
  match a.source with
  | .param name => SortedMap.get? s name = some v
  | .literal w => w = v

/-- The list of a binding where `s` is bound. -/
def Binding.HasItems (s : Scope) (b : Binding) (items : List Value) : Prop :=
  SortedMap.get? s b.list = some (.array items)

def elementsAt (lists : List (List Value)) (k : Nat) : List Value := lists.filterMap (·[k]?)

mutual

/-- The forest that a tree stands for where the superworkers `opened` are being expanded. -/
inductive Expands (r : Registry) : List String → Scope → Node → Forest → Prop
  | sequence {opened : List String} {s : Scope} {steps : List Node} {span : Span} {f : Forest}
      (hne : steps ≠ []) (h : ExpandsAll r opened s steps f) :
      Expands r opened s (.sequence steps span) f
  | leaf {opened : List String} {s : Scope} {worker : String} {args : List Arg} {span : Span}
      {values : List Value} (hw : r.hasWorker worker = true)
      (hv : List.Forall₂ (Arg.HasValue s) args values) :
      Expands r opened s (.leaf worker args span)
        [.node (.call worker) (argNames args) values []]
  | worker {opened : List String} {s : Scope} {name : String} {args : List Arg}
      {nested : Option Node} {span : Span} {values : List Value} {f : Forest}
      (hd : r.get? name = none) (hw : r.hasWorker name = true)
      (hv : List.Forall₂ (Arg.HasValue s) args values) (hn : ExpandsBlock r opened s nested f) :
      Expands r opened s (.call name args nested span)
        [.node (.call name) (argNames args) values f]
  | superworker {opened : List String} {s : Scope} {name : String} {args : List Arg}
      {nested : Option Node} {span : Span} {d : Definition} {values : List Value} {f g : Forest}
      (hd : r.get? name = some d) (ho : name ∉ opened)
      (hlen : args.length = d.parameters.length)
      (hv : List.Forall₂ (Arg.HasValue s) args values)
      (hb : Expands r (name :: opened) (Scope.bind SortedMap.empty d.parameters values) d.body f)
      (hn : ExpandsBlock r opened s nested g) :
      Expands r opened s (.call name args nested span)
        [.node (.call name) (argNames args) values (f ++ g)]
  | batch {opened : List String} {s : Scope} {bindings : List Binding} {body : Node} {span : Span}
      {lists : List (List Value)} {count : Nat} {f : Forest}
      (hne : bindings ≠ []) (hl : List.Forall₂ (Binding.HasItems s) bindings lists)
      (hc : ∀ items ∈ lists, items.length = count)
      (hb : ExpandsRows r opened s (bindings.map Binding.element) body
        ((List.range count).map (elementsAt lists)) f) :
      Expands r opened s (.batch bindings body span) [batchTree bindings f]

/-- The forest of the block of a call, empty where there is none. -/
inductive ExpandsBlock (r : Registry) : List String → Scope → Option Node → Forest → Prop
  | absent {opened : List String} {s : Scope} : ExpandsBlock r opened s none []
  | present {opened : List String} {s : Scope} {n : Node} {f : Forest}
      (h : Expands r opened s n f) : ExpandsBlock r opened s (some n) f

inductive ExpandsAll (r : Registry) : List String → Scope → List Node → Forest → Prop
  | nil {opened : List String} {s : Scope} : ExpandsAll r opened s [] []
  | cons {opened : List String} {s : Scope} {n : Node} {rest : List Node} {f g : Forest}
      (h : Expands r opened s n f) (hs : ExpandsAll r opened s rest g) :
      ExpandsAll r opened s (n :: rest) (f ++ g)

/-- A branch for each row of elements, and below it the forest of the body where the elements are
bound to the row. -/
inductive ExpandsRows (r : Registry) :
    List String → Scope → List String → Node → List (List Value) → Forest → Prop
  | nil {opened : List String} {s : Scope} {elements : List String} {body : Node} :
      ExpandsRows r opened s elements body [] []
  | cons {opened : List String} {s : Scope} {elements : List String} {body : Node}
      {row : List Value} {rest : List (List Value)} {f g : Forest}
      (h : Expands r opened (s.bind elements row) body f)
      (hs : ExpandsRows r opened s elements body rest g) :
      ExpandsRows r opened s elements body (row :: rest)
        (.node .branch (elements.map .name) row f :: g)

end

/-! ### Values of arguments and lists of batches -/

theorem lookup_eq_ok_iff {s : Scope} {name : String} {v : Value} :
    s.lookup name = .ok v ↔ SortedMap.get? s name = some v := by
  unfold Scope.lookup
  cases SortedMap.get? s name <;> simp

theorem evaluate_eq_ok_iff {s : Scope} {args : List Arg} {values : List Value} :
    evaluate s args = .ok values ↔ List.Forall₂ (Arg.HasValue s) args values := by
  induction args generalizing values with
  | nil =>
    rw [evaluate, List.forall₂_nil_left_iff]
    simp [eq_comm]
  | cons a rest ih =>
    obtain ⟨key, source⟩ := a
    rw [List.forall₂_cons_left_iff]
    cases source with
    | param name =>
      simp only [evaluate, Except.bind_eq_ok_iff, Except.pure_eq_ok_iff, ih, lookup_eq_ok_iff]
      constructor
      · intro hx
        obtain ⟨v, hv, vs, hvs, rfl⟩ := hx
        exact ⟨v, vs, hv, hvs, rfl⟩
      · intro hx
        obtain ⟨v, vs, hv, hvs, rfl⟩ := hx
        exact ⟨v, hv, vs, hvs, rfl⟩
    | literal w =>
      simp only [evaluate, Except.bind_eq_ok_iff, Except.pure_eq_ok_iff, ih]
      constructor
      · intro hx
        obtain ⟨v, hv, vs, hvs, rfl⟩ := hx
        exact ⟨v, vs, Except.ok.inj hv, hvs, rfl⟩
      · intro hx
        obtain ⟨v, vs, hv, hvs, rfl⟩ := hx
        exact ⟨v, congrArg Except.ok hv, vs, hvs, rfl⟩

theorem batchLists_eq_ok_iff {s : Scope} {bindings : List Binding} {lists : List (List Value)} :
    batchLists s bindings = .ok lists ↔ List.Forall₂ (Binding.HasItems s) bindings lists := by
  induction bindings generalizing lists with
  | nil =>
    rw [batchLists, List.forall₂_nil_left_iff]
    simp [eq_comm]
  | cons b rest ih =>
    simp only [batchLists, Except.bind_eq_ok_iff, lookup_eq_ok_iff]
    constructor
    · intro hx
      obtain ⟨v, hv, h⟩ := hx
      cases v with
      | array items =>
        simp only [Except.bind_eq_ok_iff, Except.pure_eq_ok_iff, ih] at h
        obtain ⟨more, hm, rfl⟩ := h
        exact .cons hv hm
      | _ => simp at h
    · intro h
      cases h with
      | cons hv hvs =>
        refine ⟨_, hv, ?_⟩
        simp only [Except.bind_eq_ok_iff, Except.pure_eq_ok_iff, ih]
        exact ⟨_, hvs, rfl⟩

theorem checkLengths_eq_ok_iff {count : Nat} {bindings : List Binding}
    {lists : List (List Value)} (h : bindings.length = lists.length) :
    checkLengths count bindings lists = .ok () ↔ ∀ items ∈ lists, items.length = count := by
  induction bindings generalizing lists with
  | nil =>
    cases lists with
    | nil => simp [checkLengths]
    | cons items lists => simp at h
  | cons b bindings ih =>
    cases lists with
    | nil => simp at h
    | cons items lists =>
      simp only [checkLengths]
      split
      · rename_i hc
        simp [ih (by simpa using h), hc]
      · rename_i hc
        simp [hc]

/-- Taking rows off the fronts of lists is taking the elements at each position. -/
theorem rows_eq_elementsAt (count : Nat) (lists : List (List Value)) :
    rows count lists = (List.range count).map (elementsAt lists) := by
  induction count generalizing lists with
  | zero => rfl
  | succ count ih =>
    have hfirst : lists.filterMap List.head? = elementsAt lists 0 := by
      simp [elementsAt, List.head?_eq_getElem?]
    have hrest : ∀ k, elementsAt (lists.map List.tail) k = elementsAt lists (k + 1) := by
      intro k
      simp [elementsAt, List.filterMap_map]
    rw [rows, ih, List.range_succ_eq_map, hfirst]
    simp [Function.comp_def, hrest]

theorem elementsAt_length {lists : List (List Value)} {count k : Nat} (hk : k < count)
    (hc : ∀ items ∈ lists, items.length = count) : (elementsAt lists k).length = lists.length := by
  refine List.filterMap_length_eq_length.mpr fun items hi => ?_
  simpa [hc items hi] using hk

/-! ### The rules and the expansion -/

theorem expandRows_eq_ok_iff {r : Registry} {opened : List String} {s : Scope}
    {elements : List String} {body : Node} {table : List (List Value)} {f : Forest}
    (h : ∀ s f, expand r opened s body = .ok f ↔ Expands r opened s body f) :
    expandRows (fun s' => expand r opened s' body) s elements table = .ok f ↔
      ExpandsRows r opened s elements body table f := by
  induction table generalizing f with
  | nil =>
    constructor
    · intro hf
      cases hf
      exact .nil
    · intro hf
      cases hf
      rfl
  | cons row rest ih =>
    simp only [expandRows, Except.bind_eq_ok_iff, Except.pure_eq_ok_iff, h, ih]
    constructor
    · intro hx
      obtain ⟨below, hb, more, hm, rfl⟩ := hx
      exact .cons hb hm
    · intro hf
      cases hf with
      | cons hb hm => exact ⟨_, hb, _, hm, rfl⟩

theorem expandAll_eq_ok_iff {r : Registry} {opened : List String} {s : Scope} {ns : List Node}
    {f : Forest}
    (h : ∀ n ∈ ns, ∀ f, expand r opened s n = .ok f ↔ Expands r opened s n f) :
    expandAll r opened s ns = .ok f ↔ ExpandsAll r opened s ns f := by
  induction ns generalizing f with
  | nil =>
    rw [expandAll]
    constructor
    · intro hf
      cases hf
      exact .nil
    · intro hf
      cases hf
      rfl
  | cons n rest ih =>
    simp only [expandAll, Except.bind_eq_ok_iff, Except.pure_eq_ok_iff, h n List.mem_cons_self,
      ih fun m hm => h m (List.mem_cons_of_mem _ hm)]
    constructor
    · intro hx
      obtain ⟨g, hg, more, hm, rfl⟩ := hx
      exact .cons hg hm
    · intro hf
      cases hf with
      | cons hg hm => exact ⟨_, hg, _, hm, rfl⟩

theorem expandBlock_eq_ok_iff {r : Registry} {opened : List String} {s : Scope}
    {nested : Option Node} {f : Forest}
    (h : ∀ n, nested = some n → ∀ f, expand r opened s n = .ok f ↔ Expands r opened s n f) :
    expandBlock r opened s nested = .ok f ↔ ExpandsBlock r opened s nested f := by
  cases nested with
  | none =>
    constructor
    · intro hf
      cases hf
      exact .absent
    · intro hf
      cases hf
      rfl
  | some n =>
    rw [expandBlock, h n rfl]
    constructor
    · exact .present
    · intro hf
      cases hf with
      | present hn => exact hn

section Inversion

variable {r : Registry} {opened : List String} {s : Scope} {span : Span} {f : Forest}

theorem expands_sequence_iff {steps : List Node} :
    Expands r opened s (.sequence steps span) f ↔ steps ≠ [] ∧ ExpandsAll r opened s steps f := by
  constructor
  · intro h
    cases h with
    | sequence hne h => exact ⟨hne, h⟩
  · intro hx
    obtain ⟨hne, h⟩ := hx
    exact .sequence hne h

theorem expands_leaf_iff {worker : String} {args : List Arg} :
    Expands r opened s (.leaf worker args span) f ↔ r.hasWorker worker = true ∧
      ∃ values, List.Forall₂ (Arg.HasValue s) args values ∧
        [.node (.call worker) (argNames args) values []] = f := by
  constructor
  · intro h
    cases h with
    | leaf hw hv => exact ⟨hw, _, hv, rfl⟩
  · intro hx
    obtain ⟨hw, values, hv, rfl⟩ := hx
    exact .leaf hw hv

theorem expands_batch_iff {bindings : List Binding} {body : Node} :
    Expands r opened s (.batch bindings body span) f ↔ bindings ≠ [] ∧
      ∃ lists, List.Forall₂ (Binding.HasItems s) bindings lists ∧
        ∃ count, (∀ items ∈ lists, items.length = count) ∧
          ∃ g, ExpandsRows r opened s (bindings.map Binding.element) body
            ((List.range count).map (elementsAt lists)) g ∧ [batchTree bindings g] = f := by
  constructor
  · intro h
    cases h with
    | batch hne hl hc hb => exact ⟨hne, _, hl, _, hc, _, hb, rfl⟩
  · intro hx
    obtain ⟨hne, lists, hl, count, hc, g, hb, rfl⟩ := hx
    exact .batch hne hl hc hb

variable {name : String} {args : List Arg} {nested : Option Node}

theorem expands_worker_iff (hd : r.get? name = none) :
    Expands r opened s (.call name args nested span) f ↔ r.hasWorker name = true ∧
      ∃ values, List.Forall₂ (Arg.HasValue s) args values ∧
        ∃ g, ExpandsBlock r opened s nested g ∧
          [.node (.call name) (argNames args) values g] = f := by
  constructor
  · intro h
    cases h with
    | worker _ hw hv hn => exact ⟨hw, _, hv, _, hn, rfl⟩
    | superworker hd' => cases hd.symm.trans hd'
  · intro hx
    obtain ⟨hw, values, hv, g, hn, rfl⟩ := hx
    exact .worker hd hw hv hn

theorem expands_superworker_iff {d : Definition} (hd : r.get? name = some d) :
    Expands r opened s (.call name args nested span) f ↔
      args.length = d.parameters.length ∧ name ∉ opened ∧
      ∃ values, List.Forall₂ (Arg.HasValue s) args values ∧
        ∃ g, Expands r (name :: opened) (Scope.bind SortedMap.empty d.parameters values)
          d.body g ∧
        ∃ k, ExpandsBlock r opened s nested k ∧
          [.node (.call name) (argNames args) values (g ++ k)] = f := by
  constructor
  · intro h
    cases h with
    | worker hd' => cases hd.symm.trans hd'
    | superworker hd' ho hlen hv hb hn =>
      cases hd.symm.trans hd'
      exact ⟨hlen, ho, _, hv, _, hb, _, hn, rfl⟩
  · intro hx
    obtain ⟨hlen, ho, values, hv, g, hb, k, hn, rfl⟩ := hx
    exact .superworker hd ho hlen hv hb hn

end Inversion

/-- Lists have one length if all of them are as long as the first. -/
theorem lengths_eq_first {α : Type} {lists : List (List α)} {count : Nat} (hne : lists ≠ [])
    (h : ∀ items ∈ lists, items.length = count) :
    (lists.head?.map List.length).getD 0 = count := by
  cases lists with
  | nil => exact absurd rfl hne
  | cons items rest => exact h items List.mem_cons_self

/-- The expansion gives exactly the forests that follow by the rules. -/
theorem expand_eq_ok_iff {r : Registry} {opened : List String} {s : Scope} {n : Node}
    {f : Forest} : expand r opened s n = .ok f ↔ Expands r opened s n f := by
  induction opened, n using expansion_induction r generalizing s f with
  | sequence opened steps span ih =>
    rw [expand, expands_sequence_iff, ← expandAll_eq_ok_iff fun n hn f => ih n hn]
    cases steps <;> simp
  | leaf opened worker args span =>
    rw [expand, expands_leaf_iff]
    split
    · rename_i hw
      simp only [hw, true_and, Except.bind_eq_ok_iff, Except.pure_eq_ok_iff, evaluate_eq_ok_iff]
    · rename_i hw
      simp [hw]
  | batch opened bindings body span ih =>
    rw [expand, expands_batch_iff]
    cases bindings with
    | nil => simp
    | cons b bindings =>
      simp only [List.isEmpty_cons, Bool.false_eq_true, if_false, ne_eq, reduceCtorEq,
        not_false_eq_true, true_and, Except.bind_eq_ok_iff, Except.pure_eq_ok_iff,
        batchLists_eq_ok_iff, rows_eq_elementsAt,
        expandRows_eq_ok_iff fun s f => ih (s := s) (f := f)]
      constructor
      · intro hx
        obtain ⟨lists, hl, _, hc, g, hg, rfl⟩ := hx
        exact ⟨lists, hl, _, (checkLengths_eq_ok_iff hl.length_eq).mp hc, g, hg, rfl⟩
      · intro hx
        obtain ⟨lists, hl, count, hc, g, hg, rfl⟩ := hx
        have hne : lists ≠ [] := by
          rintro rfl
          cases hl
        cases lengths_eq_first hne hc
        exact ⟨lists, hl, (), (checkLengths_eq_ok_iff hl.length_eq).mpr hc, g, hg, rfl⟩
  | call opened name args nested span ihd ihn =>
    have hblock : ∀ f, expandBlock r opened s nested = .ok f ↔ ExpandsBlock r opened s nested f :=
      fun f => expandBlock_eq_ok_iff fun n hn f => ihn n hn
    cases hd : r.get? name with
    | none =>
      rw [expand_worker hd, expands_worker_iff hd]
      split
      · rename_i hw
        simp only [hw, true_and, Except.bind_eq_ok_iff, Except.pure_eq_ok_iff,
          evaluate_eq_ok_iff, hblock]
      · rename_i hw
        simp [hw]
    | some d =>
      rw [expand_superworker hd, expands_superworker_iff hd]
      split
      · rename_i hlen
        simp [hlen]
      rename_i hlen
      split
      · rename_i ho
        simp [ho]
      rename_i ho
      simp only [not_not.mp hlen, ho, not_false_eq_true, true_and, Except.bind_eq_ok_iff,
        Except.pure_eq_ok_iff, evaluate_eq_ok_iff, ihd d hd ho, hblock]

end Workflow
