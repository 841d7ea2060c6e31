import Workflow.Proofs.Data.SortedMap
import Workflow.Proofs.Expand.Point

/-!
Compiling with limits. The body of the compiler says what is entered from a tree; run by itself, it
is the compiler, and run by a caller that counts how deep it goes and looks at the superworkers
being expanded, it gives up where it would go too deep or expand anything twice or unregistered.
With room for every node of the registry it never gives up, so compiling ends.
-/

namespace Workflow

/-- A compilation that may give up. -/
abbrev Limited := ExceptT CompileError Option

namespace Limited

variable {α β : Type}

/-- What gives up. -/
def exhausted : Limited α := ExceptT.mk none

/-- What does not give up. -/
def of (x : Except CompileError α) : Limited α := ExceptT.mk (some x)

theorem of_bind (x : Except CompileError α) (f : α → Except CompileError β) :
    (of x >>= fun a => of (f a)) = of (x >>= f) := by
  cases x <;> rfl

theorem of_pure (a : α) : of (pure a) = pure a := rfl

theorem of_ok_bind (a : α) (f : α → Limited β) : (of (.ok a) >>= f) = f a := rfl

end Limited

open Limited

/-! ### Names -/

/-- Opens superworkers one after another, as many as there is room for. -/
def checkNamesWithin (r : Registry) : (room : Nat) → (seen pending : List String) → Limited Unit
  | 0, _, _ => exhausted
  | _ + 1, _, [] => pure ()
  | room + 1, seen, name :: rest =>
    if name ∈ seen then checkNamesWithin r room seen rest
    else
      match r.get? name with
      | none => checkNamesWithin r room seen rest
      | some d => do
        let called ← of (superworkersOf r d.body.all)
        checkNamesWithin r room (name :: seen) (called ++ rest)

/-! ### Trees -/

/-- The blocks of trees one after another, each compiled by `call`. -/
def stepsBy (call : JobId → Node → Limited Block) (last : JobId) : List Node → Limited Block
  | [] => pure .empty
  | n :: rest => do
    let b ← call last n
    let more ← stepsBy call (b.lastId last) rest
    pure (b.append more)

/-- The branches of a batch, the bodies compiled by `call`. -/
def branchesBy (call : Scope → JobId → Limited Block) (s : Scope) (elements : List String)
    (batch : JobId) (last : JobId) : List (List Value) → Limited Block
  | [] => pure .empty
  | row :: rest => do
    let id := last + 1
    let below ← call (s.bind elements row) id
    let job := plainJob id branchName (elements.map .name) row (some batch)
    let b : Block := ⟨job :: below.chained.jobs, [id]⟩
    let more ← branchesBy call s elements batch (b.lastId last) rest
    pure (b.append more)

/-- Compiles a tree where what is entered from it is compiled by `call`. -/
def emitBy (r : Registry) (call : Point → Option JobId → JobId → Limited Block) (x : Point)
    (parent : Option JobId) (last : JobId) : Limited Block :=
  let id := last + 1
  match x.node with
  | .sequence steps _ =>
    if steps.isEmpty then of (.error (.misshapen .noSteps))
    else stepsBy (fun last n => call ⟨x.opened, x.scope, n⟩ parent last) last steps
  | .leaf worker args _ =>
    if r.hasWorker worker then do
      let values ← of (evaluate x.scope args)
      pure ⟨[plainJob id worker (argNames args) values parent], [id]⟩
    else of (.error (.unknownWorker worker))
  | .batch bindings body _ =>
    if bindings.isEmpty then of (.error (.misshapen .noBindings))
    else do
      let lists ← of (batchLists x.scope bindings)
      let count := (lists.head?.map List.length).getD 0
      of (checkLengths count bindings lists)
      let below ← branchesBy (fun s id => call ⟨x.opened, s, body⟩ (some id) id) x.scope
        (bindings.map Binding.element) id id (rows count lists)
      pure ((batchJob id bindings parent).holdingBranches below)
  | .call name args nested _ =>
    match r.get? name with
    | some d =>
      if args.length ≠ d.parameters.length then
        of (.error (.arityMismatch d.name d.parameters.length args.length))
      else if name ∈ x.opened then of (.error (.recursive (name :: x.opened).reverse))
      else do
        let values ← of (evaluate x.scope args)
        let job := plainJob id name (argNames args) values parent
        let inner := Scope.bind SortedMap.empty d.parameters values
        let expanded ← call ⟨name :: x.opened, inner, d.body⟩ (some id) id
        match nested with
        | none => pure (job.holding expanded.chained)
        | some body =>
          let tail ← call ⟨x.opened, x.scope, body⟩ (some id) (expanded.lastId id)
          pure (job.holding (expanded.append tail).chained)
    | none =>
      if r.hasWorker name then do
        let values ← of (evaluate x.scope args)
        let job := plainJob id name (argNames args) values parent
        match nested with
        | none => pure ⟨[job], [id]⟩
        | some body =>
          let below ← call ⟨x.opened, x.scope, body⟩ (some id) id
          pure (job.holding below.chained)
      else of (.error (.unknownWorker name))

namespace Registry

/-- Distinct registered superworkers, no more than there are definitions. -/
def Allows (r : Registry) (opened : List String) : Prop :=
  opened.Nodup ∧ (∀ name ∈ opened, (r.get? name).isSome = true) ∧
    opened.length ≤ r.definitions.size

instance (r : Registry) (opened : List String) : Decidable (r.Allows opened) :=
  inferInstanceAs (Decidable (_ ∧ _ ∧ _))

end Registry

/-- Compiles a tree with room for so many calls within one another. -/
def emitWithin (r : Registry) :
    (room : Nat) → Point → (parent : Option JobId) → (last : JobId) → Limited Block
  | 0, _, _, _ => exhausted
  | room + 1, x, parent, last =>
    if r.Allows x.opened then emitBy r (emitWithin r room) x parent last else exhausted

/-- Compiles a tree, or gives up where there is no room or where more is being expanded than may
be. -/
def compileWithin (r : Registry) (room : Nat) (args : Scope) (n : Node) : Limited Table := do
  checkNamesWithin r room [] (← of (superworkersOf r n.all))
  if 1 < headCount n then
    let below ← emitWithin r room ⟨[], args, n⟩ (some 1) 1
    pure (Table.ofJobs ((rootJob args).holding below.chained).jobs)
  else
    let block ← emitWithin r room ⟨[], args, n⟩ none 0
    pure (Table.ofJobs block.chained.jobs)

/-! ### The body of the compiler -/

theorem stepsBy_congr {call call' : JobId → Node → Limited Block} {ns : List Node}
    (h : ∀ n ∈ ns, ∀ last, call last n = call' last n) (last : JobId) :
    stepsBy call last ns = stepsBy call' last ns := by
  induction ns generalizing last with
  | nil => rfl
  | cons n rest ih =>
    simp only [stepsBy, h n List.mem_cons_self,
      fun last => ih (fun m hm => h m (List.mem_cons_of_mem _ hm)) last]

theorem branchesBy_congr {call call' : Scope → JobId → Limited Block} {s : Scope}
    {elements : List String} {table : List (List Value)}
    (h : ∀ row ∈ table, ∀ id, call (s.bind elements row) id = call' (s.bind elements row) id)
    (batch last : JobId) :
    branchesBy call s elements batch last table = branchesBy call' s elements batch last table := by
  induction table generalizing last with
  | nil => rfl
  | cons row rest ih =>
    simp only [branchesBy, h row List.mem_cons_self,
      fun last => ih (fun m hm => h m (List.mem_cons_of_mem _ hm)) last]

/-- The body of the compiler calls for nothing but what is entered. -/
theorem emitBy_congr {r : Registry} {call call' : Point → Option JobId → JobId → Limited Block}
    {x : Point} (h : ∀ y, x.Enters r y → ∀ parent last, call y parent last = call' y parent last)
    (parent : Option JobId) (last : JobId) :
    emitBy r call x parent last = emitBy r call' x parent last := by
  obtain ⟨opened, s, n⟩ := x
  cases n with
  | sequence steps span =>
    simp only [emitBy]
    rw [stepsBy_congr fun n hn last => h ⟨opened, s, n⟩ (.step hn) parent last]
  | leaf worker args span => rfl
  | batch bindings body span =>
    simp only [emitBy]
    split
    · rfl
    · cases hl : batchLists s bindings with
      | error e => rfl
      | ok lists =>
        simp only [of_ok_bind]
        cases hc : checkLengths ((lists.head?.map List.length).getD 0) bindings lists with
        | error e => rfl
        | ok _ =>
          refine congrArg (· >>= _) (branchesBy_congr (fun row hrow id => ?_) _ _)
          exact h _ (.row hl hc hrow) (some id) id
  | call name args nested span =>
    have hblock : ∀ body, nested = some body → ∀ parent last,
        call ⟨opened, s, body⟩ parent last = call' ⟨opened, s, body⟩ parent last := by
      rintro body rfl
      exact h ⟨opened, s, body⟩ .block
    simp only [emitBy]
    cases hd : r.get? name with
    | none =>
      cases nested with
      | none => rfl
      | some body => simp only [hblock body rfl]
    | some d =>
      simp only
      split
      · rfl
      rename_i hlen
      split
      · rfl
      rename_i ho
      cases hv : evaluate s args with
      | error e => rfl
      | ok values =>
        have hbody : Point.Enters r ⟨opened, s, .call name args nested span⟩
            ⟨name :: opened, Scope.bind SortedMap.empty d.parameters values, d.body⟩ :=
          .body hd (Decidable.not_not.mp hlen) ho hv
        simp only [of_ok_bind, h _ hbody]
        cases nested with
        | none => rfl
        | some body => simp only [hblock body rfl]

theorem stepsBy_of {r : Registry} {opened : List String} {s : Scope} {parent : Option JobId}
    (last : JobId) (ns : List Node) :
    stepsBy (fun last n => of (emit r opened s parent last n)) last ns =
      of (emitAll r opened s parent last ns) := by
  induction ns generalizing last with
  | nil =>
    rw [emitAll]
    rfl
  | cons n rest ih =>
    rw [emitAll, ← of_bind]
    simp only [stepsBy, ih, ← of_bind]
    rfl

theorem branchesBy_of {body : Scope → JobId → Except CompileError Block} {s : Scope}
    {elements : List String} (batch last : JobId) (table : List (List Value)) :
    branchesBy (fun s id => of (body s id)) s elements batch last table =
      of (branches body s elements batch last table) := by
  induction table generalizing last with
  | nil => rfl
  | cons row rest ih =>
    simp only [branchesBy, branches, branch, ih]
    cases body (s.bind elements row) (last + 1) with
    | error e => rfl
    | ok below =>
      simp only [of_ok_bind, ← of_bind]
      rfl

/-- The body of the compiler, where what is entered is compiled, is the compiler. -/
theorem emitBy_of (r : Registry) (x : Point) (parent : Option JobId) (last : JobId) :
    emitBy r (fun y parent last => of (emit r y.opened y.scope parent last y.node)) x parent last =
      of (emit r x.opened x.scope parent last x.node) := by
  obtain ⟨opened, s, n⟩ := x
  cases n with
  | sequence steps span =>
    rw [emit]
    simp only [emitBy, stepsBy_of]
    split <;> rfl
  | leaf worker args span =>
    rw [emit]
    simp only [emitBy]
    split
    · simp only [← of_bind, of_pure]
    · rfl
  | batch bindings body span =>
    rw [emit]
    simp only [emitBy, branchesBy_of]
    split
    · rfl
    · simp only [← of_bind, of_pure]
  | call name args nested span =>
    simp only [emitBy]
    cases hd : r.get? name with
    | none =>
      rw [emit_worker hd]
      simp only
      split
      · cases nested <;> simp only [← of_bind, of_pure]
      · rfl
    | some d =>
      rw [emit_superworker hd]
      simp only
      split
      · rfl
      split
      · rfl
      · cases nested <;> simp only [← of_bind, of_pure]

/-! ### Room enough -/

namespace Registry

/-- The nodes of all bodies. -/
def size (r : Registry) : Nat := (Node.allOf (r.definitions.values.map Definition.body)).length

/-- Room for the nodes of a tree, and for those of all bodies in each superworker. -/
def room (r : Registry) (n : Node) : Nat := n.all.length + r.definitions.size * r.size + 1

variable {r : Registry} {opened : List String}

theorem length_all_le_size {name : String} {d : Definition} (h : r.get? name = some d) :
    d.body.all.length ≤ r.size := by
  have hmem : d ∈ r.definitions.values :=
    List.mem_map.mpr ⟨(name, d), SortedMap.mem_entries_iff.mpr h, rfl⟩
  exact Node.length_all_le_allOf (List.mem_map_of_mem hmem)

theorem unseen_nil (r : Registry) : r.unseen [] = r.definitions.size := by
  simp [unseen, definitionNames, SortedMap.keys, SortedMap.size]

/-- What is opened leaves less to open by all nodes of its body. -/
theorem unseen_cons_mul_le {seen : List String} {name : String} {d : Definition}
    (h : r.get? name = some d) (hs : name ∉ seen) :
    d.body.all.length + r.unseen (name :: seen) * r.size ≤ r.unseen seen * r.size := by
  have hmul := Nat.mul_le_mul_right r.size (unseen_cons_lt h hs)
  rw [Nat.succ_mul] at hmul
  have := length_all_le_size h
  omega

theorem allows_of_registered (hnodup : opened.Nodup)
    (hreg : ∀ name ∈ opened, (r.get? name).isSome = true) : r.Allows opened := by
  refine ⟨hnodup, hreg, ?_⟩
  have hlen := hnodup.length_le_of_subset fun name h => SortedMap.mem_keys_iff.mpr (hreg name h)
  rwa [SortedMap.keys, List.length_map] at hlen

end Registry

theorem superworkersOf_length {r : Registry} {ns : List Node} {called : List String}
    (h : superworkersOf r ns = .ok called) : called.length ≤ ns.length := by
  induction ns generalizing called with
  | nil =>
    cases h
    exact Nat.le_refl _
  | cons n rest ih =>
    rw [List.length_cons]
    cases n with
    | leaf worker args span =>
      simp only [superworkersOf] at h
      split at h
      · exact Nat.le_succ_of_le (ih h)
      · cases h
    | call name args nested span =>
      simp only [superworkersOf] at h
      split at h
      · cases h
      · exact Nat.le_succ_of_le (ih h)
      · obtain ⟨c, hc, rfl⟩ := Except.map_eq_ok_iff.mp h
        exact Nat.succ_le_succ (ih hc)
    | sequence => exact Nat.le_succ_of_le (ih h)
    | batch => exact Nat.le_succ_of_le (ih h)

theorem checkNamesWithin_eq {r : Registry} {room : Nat} {seen pending : List String}
    (h : pending.length + r.unseen seen * r.size < room) :
    checkNamesWithin r room seen pending = of (checkNames r seen pending) := by
  induction room generalizing seen pending with
  | zero => exact absurd h (Nat.not_lt_zero _)
  | succ room ih =>
    cases pending with
    | nil =>
      rw [checkNames]
      rfl
    | cons name rest =>
      rw [List.length_cons] at h
      rw [checkNamesWithin, checkNames]
      split
      · exact ih (by omega)
      rename_i hs
      cases hd : r.get? name with
      | none =>
        simp only
        exact ih (by omega)
      | some d =>
        simp only
        cases hc : superworkersOf r d.body.all with
        | error e => rfl
        | ok called =>
          have hlen := superworkersOf_length hc
          have hopen := Registry.unseen_cons_mul_le hd hs
          rw [of_ok_bind]
          exact ih (by rw [List.length_append]; omega)

theorem emitWithin_eq {r : Registry} {room : Nat} {x : Point} (hnodup : x.opened.Nodup)
    (hreg : ∀ name ∈ x.opened, (r.get? name).isSome = true)
    (hroom : x.node.all.length + r.unseen x.opened * r.size ≤ room) (parent : Option JobId)
    (last : JobId) :
    emitWithin r room x parent last = of (emit r x.opened x.scope parent last x.node) := by
  induction room generalizing x parent last with
  | zero =>
    have := List.length_pos_of_mem x.node.mem_all_self
    omega
  | succ room ih =>
    rw [emitWithin, if_pos (Registry.allows_of_registered hnodup hreg), ← emitBy_of]
    refine emitBy_congr (fun y hy parent last => ?_) parent last
    obtain ⟨hnodup', hreg'⟩ := Point.Visits.opened (.single hy) hnodup hreg
    refine ih hnodup' hreg' ?_ parent last
    rcases hy.cases with ⟨hsame, -, hlt⟩ | ⟨name, _, _, _, d, -, hd, ho, hopened, hnode⟩
    · rw [hsame]
      omega
    · have := Registry.unseen_cons_mul_le hd ho
      have := List.length_pos_of_mem x.node.mem_all_self
      rw [hopened, hnode]
      omega

/-- With room for all its nodes, compiling never gives up. -/
theorem compileWithin_eq {r : Registry} {room : Nat} {n : Node} (h : r.room n ≤ room)
    (args : Scope) : compileWithin r room args n = of (compile r args n) := by
  have hemit (parent : Option JobId) (last : JobId) :
      emitWithin r room ⟨[], args, n⟩ parent last = of (emit r [] args parent last n) := by
    refine emitWithin_eq List.nodup_nil (by simp) ?_ parent last
    simp only [Registry.unseen_nil]
    rw [Registry.room] at h
    omega
  have hnames : (of (superworkersOf r n.all) >>= checkNamesWithin r room []) =
      of (resolveNames r n) := by
    rw [resolveNames, ← of_bind]
    cases hc : superworkersOf r n.all with
    | error e => rfl
    | ok called =>
      have hlen := superworkersOf_length hc
      refine checkNamesWithin_eq ?_
      rw [Registry.unseen_nil]
      rw [Registry.room] at h
      omega
  rw [compileWithin, compile, ← bind_assoc, hnames, ← of_bind]
  simp only [hemit, emitBody]
  split
  · cases emit r [] args (some 1) 1 n <;> rfl
  · cases emit r [] args none 0 n <;> rfl

end Workflow
