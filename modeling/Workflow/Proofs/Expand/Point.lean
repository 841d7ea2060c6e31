import Mathlib.Logic.Relation
import Workflow.Proofs.Forest.Rules
import Workflow.Proofs.Names.Reach

/-!
The points that an expansion comes to, each a tree with the superworkers that are being expanded
there. An expansion fails only at one of them, by what is wrong with the tree that stands there.
-/

namespace Workflow

/-- A tree, what is bound where it stands, and the superworkers that are being expanded there,
innermost first. -/
structure Point where
  opened : List String
  scope : Scope
  node : Node

namespace Point

/-- What an expansion enters from a point: a step, the body of a batch with a row of elements, the
block of a call, or the body of a superworker, where nothing but its parameters is bound. -/
inductive Enters (r : Registry) : Point → Point → Prop
  | step {opened : List String} {s : Scope} {steps : List Node} {span : Span} {n : Node}
      (h : n ∈ steps) : Enters r ⟨opened, s, .sequence steps span⟩ ⟨opened, s, n⟩
  | row {opened : List String} {s : Scope} {bindings : List Binding} {body : Node} {span : Span}
      {lists : List (List Value)} {row : List Value} (hl : batchLists s bindings = .ok lists)
      (hc : checkLengths ((lists.head?.map List.length).getD 0) bindings lists = .ok ())
      (h : row ∈ rows ((lists.head?.map List.length).getD 0) lists) :
      Enters r ⟨opened, s, .batch bindings body span⟩
        ⟨opened, s.bind (bindings.map Binding.element) row, body⟩
  | block {opened : List String} {s : Scope} {name : String} {args : List Arg} {body : Node}
      {span : Span} :
      Enters r ⟨opened, s, .call name args (some body) span⟩ ⟨opened, s, body⟩
  | body {opened : List String} {s : Scope} {name : String} {args : List Arg}
      {nested : Option Node} {span : Span} {d : Definition} {values : List Value}
      (hd : r.get? name = some d) (hlen : args.length = d.parameters.length)
      (ho : name ∉ opened) (hv : evaluate s args = .ok values) :
      Enters r ⟨opened, s, .call name args nested span⟩
        ⟨name :: opened, Scope.bind SortedMap.empty d.parameters values, d.body⟩

/-- What an expansion comes to from a point. -/
abbrev Visits (r : Registry) : Point → Point → Prop := Relation.ReflTransGen (Enters r)

/-- What is wrong with the tree at a point itself, whatever stands below it. -/
inductive Fault (r : Registry) (x : Point) : CompileError → Prop
  | unbound {name : String} (h : name ∈ x.node.readHere)
      (hs : SortedMap.get? x.scope name = none) : Fault r x (.unbound name)
  | unknown {name : String} (h : x.node.invoked? = some name) (hn : ¬ x.node.Resolves r) :
      Fault r x (.unknownWorker name)
  | noSteps {span : Span} (h : x.node = .sequence [] span) : Fault r x (.misshapen .noSteps)
  | noBindings {body : Node} {span : Span} (h : x.node = .batch [] body span) :
      Fault r x (.misshapen .noBindings)
  | notAList {b : Binding} {v : Value} (h : b.list ∈ x.node.readHere)
      (hs : SortedMap.get? x.scope b.list = some v) : Fault r x (.notAList b.list v.kind)
  | lengths {list : String} {expected found : Nat} (h : list ∈ x.node.readHere) :
      Fault r x (.lengthMismatch list expected found)
  | arity {name : String} {args : List Arg} {nested : Option Node} {span : Span} {d : Definition}
      (h : x.node = .call name args nested span) (hd : r.get? name = some d)
      (hlen : args.length ≠ d.parameters.length) :
      Fault r x (.arityMismatch d.name d.parameters.length args.length)
  | recursive {name : String} {args : List Arg} {nested : Option Node} {span : Span}
      {d : Definition} (h : x.node = .call name args nested span) (hd : r.get? name = some d)
      (ho : name ∈ x.opened) : Fault r x (.recursive (name :: x.opened).reverse)

end Point

/-! ### How the parts of an expansion fail -/

theorem lookup_eq_error_iff {s : Scope} {name : String} {e : CompileError} :
    s.lookup name = .error e ↔ SortedMap.get? s name = none ∧ e = .unbound name := by
  unfold Scope.lookup
  cases SortedMap.get? s name <;> simp [eq_comm]

/-- Arguments fail only for a name that is read and has no value. -/
theorem evaluate_error {s : Scope} {args : List Arg} {e : CompileError}
    (h : evaluate s args = .error e) :
    ∃ name ∈ args.filterMap Arg.read?, SortedMap.get? s name = none ∧ e = .unbound name := by
  induction args with
  | nil => cases h
  | cons a rest ih =>
    have later (h : evaluate s rest = .error e) : ∃ name ∈ (a :: rest).filterMap Arg.read?,
        SortedMap.get? s name = none ∧ e = .unbound name := by
      obtain ⟨name, hn, hx⟩ := ih h
      exact ⟨name, List.filterMap_subset _ (List.subset_cons_self a rest) hn, hx⟩
    obtain ⟨key, source⟩ := a
    cases source with
    | param name =>
      simp only [evaluate, Except.bind_eq_error_iff, Except.pure_ne_error, and_false,
        exists_false, or_false] at h
      obtain h | ⟨v, -, h⟩ := h
      · exact ⟨name, by simp [Arg.read?], lookup_eq_error_iff.mp h⟩
      · exact later h
    | literal v =>
      simp only [evaluate, Except.bind_eq_error_iff, Except.pure_ne_error, and_false,
        exists_false, or_false] at h
      obtain h | ⟨w, -, h⟩ := h
      · cases h
      · exact later h

/-- Lists fail for a name that has no value, or one that is not a list. -/
theorem batchLists_error {s : Scope} {bindings : List Binding} {e : CompileError}
    (h : batchLists s bindings = .error e) :
    ∃ b ∈ bindings, (SortedMap.get? s b.list = none ∧ e = .unbound b.list) ∨
      ∃ v, SortedMap.get? s b.list = some v ∧ e = .notAList b.list v.kind := by
  induction bindings with
  | nil => cases h
  | cons b rest ih =>
    simp only [batchLists, Except.bind_eq_error_iff] at h
    obtain h | ⟨v, hv, h⟩ := h
    · exact ⟨b, List.mem_cons_self, .inl (lookup_eq_error_iff.mp h)⟩
    · cases v with
      | array items =>
        simp only [Except.bind_eq_error_iff, Except.pure_ne_error, and_false, exists_false,
          or_false] at h
        obtain ⟨b', hb, hx⟩ := ih h
        exact ⟨b', List.mem_cons_of_mem _ hb, hx⟩
      | _ =>
        cases h
        exact ⟨b, List.mem_cons_self, .inr ⟨_, lookup_eq_ok_iff.mp hv, rfl⟩⟩

theorem checkLengths_error {count : Nat} {bindings : List Binding} {lists : List (List Value)}
    {e : CompileError} (h : checkLengths count bindings lists = .error e) :
    ∃ b ∈ bindings, ∃ found, e = .lengthMismatch b.list count found := by
  fun_induction checkLengths count bindings lists with
  | case1 b bs list lists hlen ih =>
    obtain ⟨b', hb, hx⟩ := ih h
    exact ⟨b', List.mem_cons_of_mem _ hb, hx⟩
  | case2 b bs list lists hlen => exact ⟨b, List.mem_cons_self, _, (Except.error.inj h).symm⟩
  | case3 => cases h

/-- Steps fail only as one of them does. -/
theorem expandAll_error {r : Registry} {opened : List String} {s : Scope} {ns : List Node}
    {e : CompileError} (h : expandAll r opened s ns = .error e) :
    ∃ n ∈ ns, expand r opened s n = .error e := by
  induction ns with
  | nil =>
    rw [expandAll] at h
    cases h
  | cons n rest ih =>
    simp only [expandAll, Except.bind_eq_error_iff, Except.pure_ne_error, and_false,
      exists_false, or_false] at h
    obtain h | ⟨f, _, h⟩ := h
    · exact ⟨n, List.mem_cons_self, h⟩
    · obtain ⟨m, hm, he⟩ := ih h
      exact ⟨m, List.mem_cons_of_mem _ hm, he⟩

/-- Branches fail only as the body does with one of the rows. -/
theorem expandRows_error {body : Scope → Except CompileError Forest} {s : Scope}
    {elements : List String} {table : List (List Value)} {e : CompileError}
    (h : expandRows body s elements table = .error e) :
    ∃ row ∈ table, body (s.bind elements row) = .error e := by
  induction table with
  | nil => cases h
  | cons row rest ih =>
    simp only [expandRows, Except.bind_eq_error_iff, Except.pure_ne_error, and_false,
      exists_false, or_false] at h
    obtain h | ⟨f, _, h⟩ := h
    · exact ⟨row, List.mem_cons_self, h⟩
    · obtain ⟨row', hrow, he⟩ := ih h
      exact ⟨row', List.mem_cons_of_mem _ hrow, he⟩

section Calls

variable {r : Registry} {opened : List String} {s : Scope} {name : String} {args : List Arg}
  {nested : Option Node} {span : Span} {e : CompileError}

theorem expand_worker_error (hd : r.get? name = none)
    (h : expand r opened s (.call name args nested span) = .error e) :
    (r.hasWorker name = false ∧ e = .unknownWorker name) ∨ evaluate s args = .error e ∨
      expandBlock r opened s nested = .error e := by
  rw [expand_worker hd] at h
  split at h
  · simp only [Except.bind_eq_error_iff, Except.pure_ne_error, and_false, exists_false,
      or_false] at h
    obtain h | ⟨_, _, h⟩ := h
    · exact .inr (.inl h)
    · exact .inr (.inr h)
  · rename_i hw
    cases h
    exact .inl ⟨by simpa using hw, rfl⟩

/-- Arguments are counted before a cycle is looked for, and both before any value is read. -/
theorem expand_superworker_error {d : Definition} (hd : r.get? name = some d)
    (h : expand r opened s (.call name args nested span) = .error e) :
    (args.length ≠ d.parameters.length ∧
        e = .arityMismatch d.name d.parameters.length args.length) ∨
      (name ∈ opened ∧ e = .recursive (name :: opened).reverse) ∨
      name ∉ opened ∧ args.length = d.parameters.length ∧
        (evaluate s args = .error e ∨ expandBlock r opened s nested = .error e ∨
          ∃ values, evaluate s args = .ok values ∧ expand r (name :: opened)
            (Scope.bind SortedMap.empty d.parameters values) d.body = .error e) := by
  rw [expand_superworker hd] at h
  split at h
  · rename_i hlen
    cases h
    exact .inl ⟨hlen, rfl⟩
  rename_i hlen
  split at h
  · rename_i ho
    cases h
    exact .inr (.inl ⟨ho, rfl⟩)
  rename_i ho
  refine .inr (.inr ⟨ho, Decidable.not_not.mp hlen, ?_⟩)
  simp only [Except.bind_eq_error_iff, Except.pure_ne_error, and_false, exists_false,
    or_false] at h
  obtain h | ⟨values, hv, h | ⟨_, _, h⟩⟩ := h
  · exact .inl h
  · exact .inr (.inr ⟨values, hv, h⟩)
  · exact .inr (.inl h)

end Calls

/-- An expansion fails at a point that it comes to, by what is wrong there. -/
theorem expand_error_fault {r : Registry} {opened : List String} {s : Scope} {n : Node}
    {e : CompileError} (h : expand r opened s n = .error e) :
    ∃ y, Point.Visits r ⟨opened, s, n⟩ y ∧ y.Fault r e := by
  induction opened, n using expansion_induction r generalizing s with
  | sequence opened steps span ih =>
    rw [expand] at h
    cases steps with
    | nil =>
      cases h
      exact ⟨_, .refl, .noSteps rfl⟩
    | cons n rest =>
      obtain ⟨m, hm, he⟩ := expandAll_error h
      obtain ⟨y, hy, hf⟩ := ih m hm he
      exact ⟨y, .head (.step hm) hy, hf⟩
  | leaf opened worker args span =>
    rw [expand] at h
    split at h
    · simp only [Except.bind_eq_error_iff, Except.pure_ne_error, and_false, exists_false,
        or_false] at h
      obtain ⟨name, hn, hs, rfl⟩ := evaluate_error h
      exact ⟨_, .refl, .unbound hn hs⟩
    · rename_i hw
      cases h
      exact ⟨_, .refl, .unknown rfl hw⟩
  | batch opened bindings body span ih =>
    rw [expand] at h
    cases bindings with
    | nil =>
      cases h
      exact ⟨_, .refl, .noBindings rfl⟩
    | cons b bindings =>
      simp only [List.isEmpty_cons, Bool.false_eq_true, if_false, Except.bind_eq_error_iff,
        Except.pure_ne_error, and_false, exists_false, or_false] at h
      obtain h | ⟨lists, hl, h | ⟨_, hc, h⟩⟩ := h
      · obtain ⟨b', hb, ⟨hs, rfl⟩ | ⟨v, hs, rfl⟩⟩ := batchLists_error h
        · exact ⟨_, .refl, .unbound (List.mem_map_of_mem hb) hs⟩
        · exact ⟨_, .refl, .notAList (List.mem_map_of_mem hb) hs⟩
      · obtain ⟨b', hb, found, rfl⟩ := checkLengths_error h
        exact ⟨_, .refl, .lengths (List.mem_map_of_mem hb)⟩
      · obtain ⟨row, hrow, he⟩ := expandRows_error h
        obtain ⟨y, hy, hf⟩ := ih he
        exact ⟨y, .head (.row hl hc hrow) hy, hf⟩
  | call opened name args nested span ihd ihn =>
    have hargs (h : evaluate s args = .error e) :
        ∃ y, Point.Visits r ⟨opened, s, .call name args nested span⟩ y ∧ y.Fault r e := by
      obtain ⟨x, hx, hs, rfl⟩ := evaluate_error h
      exact ⟨_, .refl, .unbound hx hs⟩
    have hblock (h : expandBlock r opened s nested = .error e) :
        ∃ y, Point.Visits r ⟨opened, s, .call name args nested span⟩ y ∧ y.Fault r e := by
      cases nested with
      | none => cases h
      | some body =>
        obtain ⟨y, hy, hf⟩ := ihn body rfl h
        exact ⟨y, .head .block hy, hf⟩
    cases hd : r.get? name with
    | none =>
      obtain ⟨hw, rfl⟩ | h | h := expand_worker_error hd h
      · exact ⟨_, .refl, .unknown rfl (by simp [Node.Resolves, Registry.resolve, hd, hw])⟩
      · exact hargs h
      · exact hblock h
    | some d =>
      obtain ⟨hlen, rfl⟩ | ⟨ho, rfl⟩ | ⟨ho, hlen, h | h | ⟨values, hv, h⟩⟩ :=
        expand_superworker_error hd h
      · exact ⟨_, .refl, .arity rfl hd hlen⟩
      · exact ⟨_, .refl, .recursive rfl hd ho⟩
      · exact hargs h
      · exact hblock h
      · obtain ⟨y, hy, hf⟩ := ihd d hd ho h
        exact ⟨y, .head (.body hd hlen ho hv) hy, hf⟩

/-! ### What is visited is reached -/

theorem Node.length_all_le_allOf {n : Node} {ns : List Node} (h : n ∈ ns) :
    n.all.length ≤ (allOf ns).length := by
  induction ns with
  | nil => cases h
  | cons m ns ih =>
    rw [allOf, List.length_append]
    rcases List.mem_cons.mp h with rfl | h
    · omega
    · have := ih h
      omega

namespace Point

variable {r : Registry} {x y : Point}

/-- Entering goes down in a tree, or opens a superworker that the tree calls. -/
theorem Enters.cases (h : x.Enters r y) :
    (y.opened = x.opened ∧ (∀ m ∈ y.node.all, m ∈ x.node.all) ∧
        y.node.all.length < x.node.all.length) ∨
      ∃ name args nested span d, x.node = .call name args nested span ∧
        r.get? name = some d ∧ name ∉ x.opened ∧ y.opened = name :: x.opened ∧
        y.node = d.body := by
  cases h with
  | @step opened s steps span n hn =>
    refine .inl ⟨rfl, fun m hm => List.mem_cons_of_mem _ (Node.mem_allOf hn hm), ?_⟩
    exact Nat.lt_succ_of_le (Node.length_all_le_allOf hn)
  | row hl hc hrow =>
    exact .inl ⟨rfl, fun m hm => List.mem_cons_of_mem _ hm, Nat.lt_succ_self _⟩
  | block => exact .inl ⟨rfl, fun m hm => List.mem_cons_of_mem _ hm, Nat.lt_succ_self _⟩
  | body hd hlen ho hv => exact .inr ⟨_, _, _, _, _, rfl, hd, ho, rfl, rfl⟩

theorem Visits.reaches (h : x.Visits r y) : ∀ m ∈ y.node.all, Reaches r x.node m := by
  induction h with
  | refl => exact fun m hm => .inside hm
  | @tail y z _ hyz ih =>
    rcases hyz.cases with ⟨-, hsub, -⟩ | ⟨name, args, nested, span, d, hy, hd, -, -, hz⟩
    · exact fun m hm => ih m (hsub m hm)
    · have hcall := ih y.node (Node.mem_all_self _)
      rw [hy] at hcall
      rw [hz]
      exact fun m hm => .through hcall hd hm

theorem Visits.trans_reaches {m : Node} (h : x.Visits r y) (hm : Reaches r y.node m) :
    Reaches r x.node m := by
  induction hm with
  | inside hm => exact h.reaches _ hm
  | through _ hd hm ih => exact .through ih hd hm

theorem Visits.leadsTo {name : String} (h : x.Visits r y) (hy : y.node.LeadsTo r name) :
    x.node.LeadsTo r name := by
  obtain ⟨args, nested, span, hcall⟩ := hy
  exact ⟨args, nested, span, h.trans_reaches hcall⟩

/-- Along an expansion the superworkers being expanded are distinct, and each is registered. -/
theorem Visits.opened (h : x.Visits r y) (hx : x.opened.Nodup)
    (hreg : ∀ name ∈ x.opened, (r.get? name).isSome = true) :
    y.opened.Nodup ∧ ∀ name ∈ y.opened, (r.get? name).isSome = true := by
  induction h with
  | refl => exact ⟨hx, hreg⟩
  | @tail y z _ hyz ih =>
    rcases hyz.cases with ⟨hz, -, -⟩ | ⟨name, _, _, _, d, -, hd, ho, hz, -⟩
    · rwa [hz]
    · rw [hz]
      refine ⟨List.nodup_cons.mpr ⟨ho, ih.1⟩, List.forall_mem_cons.mpr ⟨?_, ih.2⟩⟩
      rw [hd, Option.isSome_some]

end Point

end Workflow
