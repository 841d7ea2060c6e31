import Workflow.Expand.Names
import Workflow.Job.Basic
import Workflow.Node.Builder

/-!
Compiling a tree into jobs. Ids follow one another depth first, a job before everything below
it. Every phrase returns the block of jobs that it adds behind the id `last`, and its heads: the
jobs that stand directly under the given parent. The heads of a body are chained through `next`.
-/

namespace Workflow

abbrev Scope := SortedMap String Value

def Scope.lookup (s : Scope) (name : String) : Except CompileError Value :=
  match SortedMap.get? s name with
  | some v => .ok v
  | none => .error (.unbound name)

/-- The scope below a batch header or a call: the names bound in turn, hiding earlier ones. -/
def Scope.bind (s : Scope) (names : List String) (values : List Value) : Scope :=
  SortedMap.insertAll s (names.zip values)

/-- The values of arguments, in order. -/
def evaluate (s : Scope) : List Arg → Except CompileError (List Value)
  | [] => .ok []
  | a :: rest => do
    let v ← match a.source with
      | .param name => s.lookup name
      | .literal v => .ok v
    let vs ← evaluate s rest
    pure (v :: vs)

/-- Jobs with the ids behind `last`, and those of them that stand directly under the parent. -/
structure Block where
  jobs : List Job
  heads : List JobId

namespace Block

def empty : Block := ⟨[], []⟩

def append (a b : Block) : Block := ⟨a.jobs ++ b.jobs, a.heads ++ b.heads⟩

/-- The id of the last job of a block behind `last`. -/
def lastId (b : Block) (last : JobId) : JobId := last + b.jobs.length

end Block

/-- Lets a job be followed by another. -/
def link (id next : JobId) (jobs : List Job) : List Job :=
  jobs.map fun j => if j.id = id then { j with next := some next } else j

/-- Lets every job of a list be followed by the one after it. -/
def chain : List JobId → List Job → List Job
  | a :: b :: rest, jobs => chain (b :: rest) (link a b jobs)
  | _, jobs => jobs

def Block.chained (b : Block) : Block := ⟨chain b.heads b.jobs, b.heads⟩

def argNames (args : List Arg) : List ArgKey := args.map fun a => .name a.key

/-- A job with no links but its parent. -/
def plainJob (id : JobId) (worker : String) (keys : List ArgKey) (values : List Value)
    (parent : Option JobId) : Job :=
  ⟨id, worker, keys, values, parent, none, none⟩

/-- Puts a job before the block of a body that runs below it. -/
def Job.holding (j : Job) (below : Block) : Block :=
  ⟨{ j with branches := below.heads.head?.map ([·]) } :: below.jobs, [j.id]⟩

/-! ### Batches -/

/-- The lists of a batch, in the order of its bindings. -/
def batchLists (s : Scope) : List Binding → Except CompileError (List (List Value))
  | [] => .ok []
  | b :: rest => do
    let v ← s.lookup b.list
    match v with
    | .array items =>
      let lists ← batchLists s rest
      pure (items :: lists)
    | other => .error (.notAList b.list other.kind)

/-- All lists of a batch must be as long as the first. -/
def checkLengths (expected : Nat) : List Binding → List (List Value) → Except CompileError Unit
  | b :: bs, list :: lists =>
    if list.length = expected then checkLengths expected bs lists
    else .error (.lengthMismatch b.list expected list.length)
  | _, _ => .ok ()

/-- The first elements of all lists, then the second ones, and so on: `count` rows. -/
def rows : (count : Nat) → List (List Value) → List (List Value)
  | 0, _ => []
  | count + 1, lists => lists.filterMap List.head? :: rows count (lists.map List.tail)

def batchJob (id : JobId) (bindings : List Binding) (parent : Option JobId) : Job :=
  let mapping : SortedMap String String := SortedMap.ofList (bindings.map fun b => (b.list, b.element))
  plainJob id batchName [.bindings mapping] [Value.ofMap .string mapping] parent

/-- One branch of a batch: its job, and under it the batch's body. -/
def branch (body : Scope → JobId → Except CompileError Block) (s : Scope)
    (elements : List String) (batch : JobId) (last : JobId) (row : List Value) :
    Except CompileError Block := do
  let id := last + 1
  let below ← body (s.bind elements row) id
  let job := plainJob id branchName (elements.map .name) row (some batch)
  pure ⟨job :: below.chained.jobs, [id]⟩

/-- The branches of a batch, a row of elements to each. -/
def branches (body : Scope → JobId → Except CompileError Block) (s : Scope)
    (elements : List String) (batch : JobId) (last : JobId) :
    List (List Value) → Except CompileError Block
  | [] => .ok .empty
  | row :: rest => do
    let b ← branch body s elements batch last row
    let more ← branches body s elements batch (b.lastId last) rest
    pure (b.append more)

/-- Puts the job of a batch before its branches. -/
def Job.holdingBranches (j : Job) (below : Block) : Block :=
  let ids := if below.heads.isEmpty then none else some below.heads
  ⟨{ j with branches := ids } :: below.jobs, [j.id]⟩

/-! ### Trees -/

mutual

/-- The block of a tree under `parent`, where the superworkers `opened`, innermost first, are
being expanded. -/
def emit (r : Registry) (opened : List String) (s : Scope) (parent : Option JobId)
    (last : JobId) (n : Node) : Except CompileError Block :=
  match n with
  | .sequence steps _ =>
    if steps.isEmpty then .error (.misshapen .noSteps)
    else emitAll r opened s parent last steps
  | .leaf worker args _ =>
    if r.hasWorker worker then do
      let values ← evaluate s args
      let id := last + 1
      pure ⟨[plainJob id worker (argNames args) values parent], [id]⟩
    else .error (.unknownWorker worker)
  | .batch bindings body _ =>
    if bindings.isEmpty then .error (.misshapen .noBindings)
    else do
      let lists ← batchLists s bindings
      let count := (lists.head?.map List.length).getD 0
      checkLengths count bindings lists
      let id := last + 1
      let below ← branches (fun s' id' => emit r opened s' (some id') id' body) s
        (bindings.map Binding.element) id id (rows count lists)
      pure ((batchJob id bindings parent).holdingBranches below)
  | .call name args nested _ =>
    let id := last + 1
    match _h : r.get? name with
    | some d =>
      if args.length ≠ d.parameters.length then
        .error (.arityMismatch d.name d.parameters.length args.length)
      else if _ho : name ∈ opened then .error (.recursive (name :: opened).reverse)
      else do
        let values ← evaluate s args
        let job := plainJob id name (argNames args) values parent
        let inner := Scope.bind SortedMap.empty d.parameters values
        let expanded ← emit r (name :: opened) inner (some id) id d.body
        match nested with
        | none => pure (job.holding expanded.chained)
        | some body =>
          let tail ← emit r opened s (some id) (expanded.lastId id) body
          pure (job.holding (expanded.append tail).chained)
    | none =>
      if r.hasWorker name then do
        let values ← evaluate s args
        let job := plainJob id name (argNames args) values parent
        match nested with
        | none => pure ⟨[job], [id]⟩
        | some body =>
          let below ← emit r opened s (some id) id body
          pure (job.holding below.chained)
      else .error (.unknownWorker name)
termination_by (r.unseen opened, sizeOf n)
decreasing_by
  · exact Prod.Lex.right _ (by simp; omega)
  · exact Prod.Lex.right _ (by simp; omega)
  · exact Prod.Lex.left _ _ (Registry.unseen_cons_lt _h _ho)
  · exact Prod.Lex.right _ (by simp; omega)
  · exact Prod.Lex.right _ (by simp; omega)

/-- The blocks of trees one after another. -/
def emitAll (r : Registry) (opened : List String) (s : Scope) (parent : Option JobId)
    (last : JobId) (ns : List Node) : Except CompileError Block :=
  match ns with
  | [] => .ok .empty
  | n :: rest => do
    let b ← emit r opened s parent last n
    let more ← emitAll r opened s parent (b.lastId last) rest
    pure (b.append more)
termination_by (r.unseen opened, sizeOf ns)
decreasing_by
  · exact Prod.Lex.right _ (by rw [List.cons.sizeOf_spec]; omega)
  · exact Prod.Lex.right _ (by rw [List.cons.sizeOf_spec]; omega)

end

/-- The block of a tree whose heads follow one another. -/
def emitBody (r : Registry) (opened : List String) (s : Scope) (parent : Option JobId)
    (last : JobId) (n : Node) : Except CompileError Block :=
  (emit r opened s parent last n).map Block.chained

mutual

/-- How many heads a tree has. -/
def headCount : Node → Nat
  | .sequence steps _ => headCounts steps
  | _ => 1

def headCounts : List Node → Nat
  | [] => 0
  | n :: ns => headCount n + headCounts ns

end

/-- The job that holds several top-level steps; its arguments are all that is bound. -/
def rootJob (s : Scope) : Job :=
  plainJob 1 superworkerName (s.keys.map .name) s.values none

/-- Compiles a tree with the given values bound. Several top-level steps get a structural root. -/
def compile (r : Registry) (args : Scope) (n : Node) : Except CompileError Table := do
  resolveNames r n
  if 1 < headCount n then
    let below ← emitBody r [] args (some 1) 1 n
    pure (Table.ofJobs ((rootJob args).holding below).jobs)
  else
    let block ← emitBody r [] args none 0 n
    pure (Table.ofJobs block.jobs)

/-- Compiles a registered superworker, its parameters bound by name. -/
def compileDefinition (r : Registry) (args : Scope) (name : String) :
    Except CompileError Table :=
  match r.get? name with
  | none => .error (.unknownWorker name)
  | some d => compile r args (Node.Builder.passing name d.parameters)

end Workflow
