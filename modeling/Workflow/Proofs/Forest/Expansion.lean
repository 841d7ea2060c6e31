import Workflow.Proofs.Forest.Basic

/-!
What a tree expands to, apart from ids and links. Compiling is expanding and then numbering: the
compiler fails exactly as the expansion does, and its block is the numbered forest.
-/

namespace Workflow

def batchTree (bindings : List Binding) (branches : Forest) : JobTree :=
  let mapping : SortedMap String String :=
    SortedMap.ofList (bindings.map fun b => (b.list, b.element))
  .node .batch [.bindings mapping] [Value.ofMap .string mapping] branches

/-- A branch for each row of elements, with the forest of the body below it. -/
def expandRows (body : Scope → Except CompileError Forest) (s : Scope) (elements : List String) :
    List (List Value) → Except CompileError Forest
  | [] => .ok []
  | row :: rest => do
    let below ← body (s.bind elements row)
    let more ← expandRows body s elements rest
    pure (.node .branch (elements.map .name) row below :: more)

mutual

/-- The forest of a tree where the superworkers `opened` are being expanded. -/
def expand (r : Registry) (opened : List String) (s : Scope) (n : Node) :
    Except CompileError Forest :=
  match n with
  | .sequence steps _ =>
    if steps.isEmpty then .error (.misshapen .noSteps) else expandAll r opened s steps
  | .leaf worker args _ =>
    if r.hasWorker worker then do
      let values ← evaluate s args
      pure [.node (.call worker) (argNames args) values []]
    else .error (.unknownWorker worker)
  | .batch bindings body _ =>
    if bindings.isEmpty then .error (.misshapen .noBindings)
    else do
      let lists ← batchLists s bindings
      let count := (lists.head?.map List.length).getD 0
      checkLengths count bindings lists
      let branches ← expandRows (fun s' => expand r opened s' body) s
        (bindings.map Binding.element) (rows count lists)
      pure [batchTree bindings branches]
  | .call name args nested _ =>
    match _h : r.get? name with
    | some d =>
      if args.length ≠ d.parameters.length then
        .error (.arityMismatch d.name d.parameters.length args.length)
      else if _ho : name ∈ opened then .error (.recursive (name :: opened).reverse)
      else do
        let values ← evaluate s args
        let expanded ← expand r (name :: opened)
          (Scope.bind SortedMap.empty d.parameters values) d.body
        match nested with
        | none => pure [.node (.call name) (argNames args) values expanded]
        | some body =>
          let tail ← expand r opened s body
          pure [.node (.call name) (argNames args) values (expanded ++ tail)]
    | none =>
      if r.hasWorker name then do
        let values ← evaluate s args
        match nested with
        | none => pure [.node (.call name) (argNames args) values []]
        | some body =>
          let below ← expand r opened s body
          pure [.node (.call name) (argNames args) values below]
      else .error (.unknownWorker name)
termination_by (r.unseen opened, sizeOf n)
decreasing_by
  · exact Prod.Lex.right _ (by simp; omega)
  · exact Prod.Lex.right _ (by simp; omega)
  · exact Prod.Lex.left _ _ (Registry.unseen_cons_lt _h _ho)
  · exact Prod.Lex.right _ (by simp; omega)
  · exact Prod.Lex.right _ (by simp; omega)

def expandAll (r : Registry) (opened : List String) (s : Scope) (ns : List Node) :
    Except CompileError Forest :=
  match ns with
  | [] => .ok []
  | n :: rest => do
    let f ← expand r opened s n
    let more ← expandAll r opened s rest
    pure (f ++ more)
termination_by (r.unseen opened, sizeOf ns)
decreasing_by
  · exact Prod.Lex.right _ (by rw [List.cons.sizeOf_spec]; omega)
  · exact Prod.Lex.right _ (by rw [List.cons.sizeOf_spec]; omega)

end

/-- The forest of the block of a call, empty where there is none. -/
def expandBlock (r : Registry) (opened : List String) (s : Scope) :
    Option Node → Except CompileError Forest
  | none => .ok []
  | some n => expand r opened s n

/-- Induction along an expansion: down a tree, and into the body of a superworker that is not
being expanded yet. -/
@[elab_as_elim]
theorem expansion_induction (r : Registry) {motive : List String → Node → Prop}
    (sequence : ∀ opened steps span, (∀ n ∈ steps, motive opened n) →
      motive opened (.sequence steps span))
    (leaf : ∀ opened worker args span, motive opened (.leaf worker args span))
    (batch : ∀ opened bindings body span, motive opened body →
      motive opened (.batch bindings body span))
    (call : ∀ opened name args nested span,
      (∀ d, r.get? name = some d → name ∉ opened → motive (name :: opened) d.body) →
      (∀ body, nested = some body → motive opened body) →
      motive opened (.call name args nested span))
    (opened : List String) (n : Node) : motive opened n :=
  match n with
  | .sequence steps span => sequence opened steps span fun n _ =>
      expansion_induction r sequence leaf batch call opened n
  | .leaf worker args span => leaf opened worker args span
  | .batch bindings body span => batch opened bindings body span
      (expansion_induction r sequence leaf batch call opened body)
  | .call name args none span => call opened name args none span
      (fun d _ _ => expansion_induction r sequence leaf batch call (name :: opened) d.body)
      nofun
  | .call name args (some body) span => call opened name args (some body) span
      (fun d _ _ => expansion_induction r sequence leaf batch call (name :: opened) d.body)
      (fun _ h => Option.some.inj h ▸ expansion_induction r sequence leaf batch call opened body)
termination_by (r.unseen opened, sizeOf n)
decreasing_by
  · rename_i h
    have := List.sizeOf_lt_of_mem h
    exact Prod.Lex.right _ (by simp; omega)
  · exact Prod.Lex.right _ (by simp; omega)
  · rename_i h ho
    exact Prod.Lex.left _ _ (Registry.unseen_cons_lt h ho)
  · rename_i h ho
    exact Prod.Lex.left _ _ (Registry.unseen_cons_lt h ho)
  · exact Prod.Lex.right _ (by simp; omega)

/-- The block of a forest under `parent` behind `last`, its trees not yet chained. -/
def Block.ofForest (parent : Option JobId) (last : JobId) (f : Forest) : Block :=
  ⟨numberAll false parent (last + 1) f, headIds (last + 1) f⟩

namespace Block

theorem ofForest_lastId (parent : Option JobId) (last : JobId) (f : Forest) :
    (ofForest parent last f).lastId last = last + forestSize f := by
  simp [lastId, ofForest, numberAll_length]

theorem ofForest_append (parent : Option JobId) (last : JobId) (f g : Forest) :
    ofForest parent last (f ++ g) =
      (ofForest parent last f).append (ofForest parent (last + forestSize f) g) := by
  have h : last + 1 + forestSize f = last + forestSize f + 1 := by lia
  simp [ofForest, append, numberAll_append, headIds_append, h]

theorem ofForest_chained (parent : Option JobId) (last : JobId) (f : Forest) :
    (ofForest parent last f).chained =
      ⟨numberAll true parent (last + 1) f, headIds (last + 1) f⟩ := by
  simp [chained, ofForest, chain_numberAll]

/-- A job put before what runs below it is the block of one tree. -/
theorem holding_ofForest (last : JobId) (name : String) (keys : List ArgKey)
    (values : List Value) (parent : Option JobId) (f : Forest) :
    (plainJob (last + 1) name keys values parent).holding
        (ofForest (some (last + 1)) (last + 1) f).chained =
      ofForest parent last [.node (.call name) keys values f] := by
  rw [ofForest_chained]
  simp [Job.holding, plainJob, ofForest, numberAll_singleton, JobTree.number, headIds,
    JobKind.listed, JobKind.chains, JobKind.worker]

theorem ofForest_call (last : JobId) (name : String) (keys : List ArgKey) (values : List Value)
    (parent : Option JobId) :
    ofForest parent last [.node (.call name) keys values []] =
      ⟨[plainJob (last + 1) name keys values parent], [last + 1]⟩ := by
  simp [plainJob, ofForest, JobTree.number, numberAll, headIds, JobKind.listed, JobKind.worker]

theorem ofForest_branch (batch last : JobId) (elements : List String) (row : List Value)
    (f : Forest) :
    ofForest (some batch) last [.node .branch (elements.map .name) row f] =
      ⟨plainJob (last + 1) branchName (elements.map .name) row (some batch) ::
        (ofForest (some (last + 1)) (last + 1) f).chained.jobs, [last + 1]⟩ := by
  rw [ofForest_chained]
  simp [plainJob, ofForest, numberAll_singleton, JobTree.number, headIds, JobKind.listed,
    JobKind.chains, JobKind.worker]

theorem ofForest_batch (parent : Option JobId) (last : JobId) (bindings : List Binding)
    (f : Forest) :
    ofForest parent last [batchTree bindings f] =
      (batchJob (last + 1) bindings parent).holdingBranches
        (ofForest (some (last + 1)) (last + 1) f) := by
  simp [batchTree, batchJob, Job.holdingBranches, plainJob, ofForest, numberAll_singleton,
    JobTree.number, headIds, JobKind.listed, JobKind.chains, JobKind.worker]

end Block

/-! ### The compiler numbers the expansion -/

section Calls

variable {r : Registry} {opened : List String} {s : Scope} {name : String} {args : List Arg}
  {nested : Option Node} {span : Span}

theorem emit_superworker {d : Definition} (h : r.get? name = some d) (parent : Option JobId)
    (last : JobId) :
    emit r opened s parent last (.call name args nested span) =
      if args.length ≠ d.parameters.length then
        .error (.arityMismatch d.name d.parameters.length args.length)
      else if name ∈ opened then .error (.recursive (name :: opened).reverse)
      else (do
        let values ← evaluate s args
        let job := plainJob (last + 1) name (argNames args) values parent
        let expanded ← emit r (name :: opened) (Scope.bind SortedMap.empty d.parameters values)
          (some (last + 1)) (last + 1) d.body
        match nested with
        | none => pure (job.holding expanded.chained)
        | some body =>
          let tail ← emit r opened s (some (last + 1)) (expanded.lastId (last + 1)) body
          pure (job.holding (expanded.append tail).chained)) := by
  rw [emit]
  split
  · rename_i d' h'
    cases h.symm.trans h'
    rfl
  · rename_i h'
    cases h.symm.trans h'

theorem emit_worker (h : r.get? name = none) (parent : Option JobId) (last : JobId) :
    emit r opened s parent last (.call name args nested span) =
      if r.hasWorker name then do
        let values ← evaluate s args
        let job := plainJob (last + 1) name (argNames args) values parent
        match nested with
        | none => pure ⟨[job], [last + 1]⟩
        | some body =>
          let below ← emit r opened s (some (last + 1)) (last + 1) body
          pure (job.holding below.chained)
      else .error (.unknownWorker name) := by
  rw [emit]
  split
  · rename_i d h'
    cases h.symm.trans h'
  · rfl

theorem expand_superworker {d : Definition} (h : r.get? name = some d) :
    expand r opened s (.call name args nested span) =
      if args.length ≠ d.parameters.length then
        .error (.arityMismatch d.name d.parameters.length args.length)
      else if name ∈ opened then .error (.recursive (name :: opened).reverse)
      else (do
        let values ← evaluate s args
        let expanded ← expand r (name :: opened)
          (Scope.bind SortedMap.empty d.parameters values) d.body
        let tail ← expandBlock r opened s nested
        pure [.node (.call name) (argNames args) values (expanded ++ tail)]) := by
  rw [expand]
  split
  · rename_i d' h'
    cases h.symm.trans h'
    cases nested with
    | none => simp [expandBlock, bind, Except.bind]
    | some body => rfl
  · rename_i h'
    cases h.symm.trans h'

theorem expand_worker (h : r.get? name = none) :
    expand r opened s (.call name args nested span) =
      if r.hasWorker name then (do
        let values ← evaluate s args
        let below ← expandBlock r opened s nested
        pure [.node (.call name) (argNames args) values below])
      else .error (.unknownWorker name) := by
  rw [expand]
  split
  · rename_i d h'
    cases h.symm.trans h'
  · cases nested <;> rfl

end Calls

/-- The branches of a batch, given that its body is compiled by expanding it. -/
theorem branches_eq_expandRows {body : Scope → JobId → Except CompileError Block}
    {grow : Scope → Except CompileError Forest}
    (h : ∀ s id, body s id = (grow s).map (Block.ofForest (some id) id)) (s : Scope)
    (elements : List String) (batch last : JobId) (table : List (List Value)) :
    branches body s elements batch last table =
      (expandRows grow s elements table).map (Block.ofForest (some batch) last) := by
  induction table generalizing last with
  | nil => rfl
  | cons row rest ih =>
    simp only [branches, branch, expandRows, h]
    cases hg : grow (s.bind elements row) with
    | error e => rfl
    | ok below =>
      have hlast := Block.ofForest_lastId (some batch) last
        [.node .branch (elements.map .name) row below]
      have hb := Block.ofForest_branch batch last elements row below
      simp only [Except.map, bind, Except.bind, pure, Except.pure] at ih ⊢
      rw [← hb, hlast, ih]
      cases hm : expandRows grow s elements rest with
      | error e => rfl
      | ok more =>
        simp only
        rw [← Block.ofForest_append]
        rfl

/-- The blocks of steps, given that each step is compiled by expanding it. -/
theorem emitAll_eq_expandAll {r : Registry} {opened : List String} {s : Scope} {ns : List Node}
    (h : ∀ n ∈ ns, ∀ parent last, emit r opened s parent last n =
      (expand r opened s n).map (Block.ofForest parent last))
    (parent : Option JobId) (last : JobId) :
    emitAll r opened s parent last ns =
      (expandAll r opened s ns).map (Block.ofForest parent last) := by
  induction ns generalizing last with
  | nil =>
    rw [emitAll, expandAll]
    rfl
  | cons n rest ih =>
    rw [emitAll, expandAll, h n List.mem_cons_self]
    cases expand r opened s n with
    | error e => rfl
    | ok f =>
      have hrest := ih (fun m hm => h m (List.mem_cons_of_mem _ hm)) (last + forestSize f)
      simp only [Except.map, bind, Except.bind, Block.ofForest_lastId, hrest]
      cases expandAll r opened s rest with
      | error e => rfl
      | ok g => exact congrArg Except.ok (Block.ofForest_append ..).symm

section Calls

variable {r : Registry} {opened : List String} {s : Scope} {name : String} {args : List Arg}
  {nested : Option Node} {span : Span}

/-- The call of a worker, given that its block is compiled by expanding it. -/
theorem emit_worker_eq_expand (hd : r.get? name = none)
    (hn : ∀ body, nested = some body → ∀ parent last, emit r opened s parent last body =
      (expand r opened s body).map (Block.ofForest parent last))
    (parent : Option JobId) (last : JobId) :
    emit r opened s parent last (.call name args nested span) =
      (expand r opened s (.call name args nested span)).map (Block.ofForest parent last) := by
  rw [emit_worker hd, expand_worker hd]
  split
  · cases evaluate s args with
    | error e => rfl
    | ok values =>
      cases nested with
      | none => exact congrArg Except.ok (Block.ofForest_call ..).symm
      | some body =>
        simp only [bind, Except.bind, expandBlock, hn body rfl]
        cases expand r opened s body with
        | error e => rfl
        | ok f => exact congrArg Except.ok (Block.holding_ofForest ..)
  · rfl

/-- The call of a superworker, given that its body and its block are compiled by expanding
them. -/
theorem emit_superworker_eq_expand {d : Definition} (hd : r.get? name = some d)
    (hb : name ∉ opened → ∀ s parent last, emit r (name :: opened) s parent last d.body =
      (expand r (name :: opened) s d.body).map (Block.ofForest parent last))
    (hn : ∀ body, nested = some body → ∀ parent last, emit r opened s parent last body =
      (expand r opened s body).map (Block.ofForest parent last))
    (parent : Option JobId) (last : JobId) :
    emit r opened s parent last (.call name args nested span) =
      (expand r opened s (.call name args nested span)).map (Block.ofForest parent last) := by
  rw [emit_superworker hd, expand_superworker hd]
  split
  · rfl
  split
  · rfl
  rename_i ho
  cases evaluate s args with
  | error e => rfl
  | ok values =>
    simp only [bind, Except.bind, hb ho]
    cases expand r (name :: opened) (Scope.bind SortedMap.empty d.parameters values) d.body with
    | error e => rfl
    | ok f =>
      cases nested with
      | none =>
        simp only [expandBlock, List.append_nil]
        exact congrArg Except.ok (Block.holding_ofForest ..)
      | some body =>
        simp only [expandBlock, Except.map, Block.ofForest_lastId, hn body rfl]
        cases expand r opened s body with
        | error e => rfl
        | ok g =>
          simp only [pure, Except.pure, ← Block.ofForest_append]
          exact congrArg Except.ok (Block.holding_ofForest ..)

end Calls

/-- The compiler's block is the block of the expansion, and the compiler fails as it does. -/
theorem emit_eq_expand (r : Registry) (opened : List String) (s : Scope) (parent : Option JobId)
    (last : JobId) (n : Node) :
    emit r opened s parent last n = (expand r opened s n).map (Block.ofForest parent last) := by
  induction opened, n using expansion_induction r generalizing s parent last with
  | sequence opened steps span ih =>
    rw [emit, expand]
    split
    · rfl
    · exact emitAll_eq_expandAll (fun n hn parent last => ih n hn s parent last) parent last
  | leaf opened worker args span =>
    rw [emit, expand]
    split
    · cases evaluate s args with
      | error e => rfl
      | ok values => exact congrArg Except.ok (Block.ofForest_call ..).symm
    · rfl
  | batch opened bindings body span ih =>
    rw [emit, expand]
    split
    · rfl
    · cases batchLists s bindings with
      | error e => rfl
      | ok lists =>
        simp only [bind, Except.bind]
        cases checkLengths ((lists.head?.map List.length).getD 0) bindings lists with
        | error e => rfl
        | ok _ =>
          simp only
          rw [branches_eq_expandRows fun s' id => ih s' (some id) id]
          cases expandRows (fun s' => expand r opened s' body) s (bindings.map Binding.element)
              (rows ((lists.head?.map List.length).getD 0) lists) with
          | error e => rfl
          | ok f => exact congrArg Except.ok (Block.ofForest_batch ..).symm
  | call opened name args nested span ihd ihn =>
    have hn : ∀ body, nested = some body → ∀ parent last, emit r opened s parent last body =
        (expand r opened s body).map (Block.ofForest parent last) :=
      fun body hb parent last => ihn body hb s parent last
    cases hd : r.get? name with
    | none => exact emit_worker_eq_expand hd hn parent last
    | some d => exact emit_superworker_eq_expand hd (ihd d hd) hn parent last

end Workflow
