import Workflow.Proofs.Assembly.Basic
import Workflow.Proofs.Forest.Table

/-!
Compiling in place. Every phrase writes its jobs into one shared table and sets the links of jobs
that are already in it. The jobs it leaves there are those of the block of the phrase, and it fails
where there is no such block.
-/

namespace Workflow

namespace Assembly

/-- A table in which a phrase has been written, and the heads of the phrase. The superworkers that
are being expanded are again those from before. -/
structure Built (w : Assembly) where
  heads : List JobId
  after : Assembly
  opened : after.opened = w.opened

namespace Built

variable {w : Assembly}

/-- Lets the heads follow one another. -/
def chained (b : w.Built) : w.Built :=
  ⟨b.heads, b.after.chain b.heads, by rw [chain_opened, b.opened]⟩

def append (b : w.Built) (more : b.after.Built) : w.Built :=
  ⟨b.heads ++ more.heads, more.after, by rw [more.opened, b.opened]⟩

/-- A job with what has been written below it, when it is known which ids the job lists. -/
def listing (id : JobId) (below : Assembly) (ids : List JobId) (h : below.opened = w.opened) :
    w.Built :=
  ⟨[id], below.setBranches id ids, by rw [setBranches_opened, h]⟩

end Built

/-- One branch of a batch, where `body` writes what is below it. -/
def buildBranch (opened : List String)
    (body : Scope → (w : Assembly) → w.opened = opened → Except CompileError w.Built) (s : Scope)
    (elements : List String) (batch : JobId) (w : Assembly) (h : w.opened = opened)
    (row : List Value) : Except CompileError w.Built := do
  let branch := w.push (plainJob · branchName (elements.map .name) row (some batch))
  let below ← body (s.bind elements row) branch ((push_opened ..).trans h)
  pure ⟨[branch.lastId], below.chained.after, below.chained.opened⟩

/-- The branches of a batch, a row of elements to each. -/
def buildRows (opened : List String)
    (body : Scope → (w : Assembly) → w.opened = opened → Except CompileError w.Built) (s : Scope)
    (elements : List String) (batch : JobId) (w : Assembly) (h : w.opened = opened) :
    List (List Value) → Except CompileError w.Built
  | [] => .ok ⟨[], w, rfl⟩
  | row :: rest => do
    let b ← buildBranch opened body s elements batch w h row
    let more ← buildRows opened body s elements batch b.after (b.opened.trans h) rest
    pure (b.append more)

mutual

/-- Writes a tree under `parent`; its heads do not follow one another yet. -/
def build (r : Registry) (s : Scope) (parent : Option JobId) (w : Assembly) (n : Node) :
    Except CompileError w.Built :=
  match n with
  | .sequence steps _ =>
    if steps.isEmpty then .error (.misshapen .noSteps) else buildAll r s parent w steps
  | .leaf worker args _ =>
    if r.hasWorker worker then do
      let values ← evaluate s args
      let call := w.push (plainJob · worker (argNames args) values parent)
      pure ⟨[call.lastId], call, rfl⟩
    else .error (.unknownWorker worker)
  | .batch bindings body _ =>
    if bindings.isEmpty then .error (.misshapen .noBindings)
    else do
      let lists ← batchLists s bindings
      let count := (lists.head?.map List.length).getD 0
      checkLengths count bindings lists
      let batch := w.push (batchJob · bindings parent)
      let below ← buildRows w.opened (fun s' w' _h => build r s' (some w'.lastId) w' body) s
        (bindings.map Binding.element) batch.lastId batch (push_opened ..) (rows count lists)
      pure (.listing batch.lastId below.after below.heads below.opened)
  | .call name args nested _ =>
    match _h : r.get? name with
    | some d =>
      if args.length ≠ d.parameters.length then
        .error (.arityMismatch d.name d.parameters.length args.length)
      else if _ho : name ∈ w.opened then .error (.recursive (name :: w.opened).reverse)
      else do
        let values ← evaluate s args
        let inner := Scope.bind SortedMap.empty d.parameters values
        let call := w.push (plainJob · name (argNames args) values parent)
        let expanded ← build r inner (some call.lastId) (call.enter name) d.body
        let returned := expanded.chained.after.leave
        have hret : returned.opened = w.opened := by
          rw [leave_opened, expanded.chained.opened]
          rfl
        match nested with
        | none => pure (.listing call.lastId returned (expanded.heads.take 1) hret)
        | some body =>
          let tail ← build r s (some call.lastId) returned body
          let joined := tail.chained.after.join expanded.heads tail.heads
          have hjoined : joined.opened = w.opened := by
            rw [join_opened, tail.chained.opened, hret]
          pure (.listing call.lastId joined (expanded.heads.take 1) hjoined)
    | none =>
      if r.hasWorker name then do
        let values ← evaluate s args
        let call := w.push (plainJob · name (argNames args) values parent)
        match nested with
        | none => pure ⟨[call.lastId], call, rfl⟩
        | some body =>
          let below ← build r s (some call.lastId) call body
          pure (.listing call.lastId below.chained.after (below.heads.take 1)
            below.chained.opened)
      else .error (.unknownWorker name)
termination_by (r.unseen w.opened, sizeOf n)
decreasing_by
  · exact Prod.Lex.right _ (by simp; omega)
  · rw [_h]
    exact Prod.Lex.right _ (by simp; omega)
  · exact Prod.Lex.left _ _ (Registry.unseen_cons_lt _h _ho)
  · rw [hret]
    exact Prod.Lex.right _ (by simp; omega)
  · exact Prod.Lex.right _ (by simp; omega)

def buildAll (r : Registry) (s : Scope) (parent : Option JobId) (w : Assembly) (ns : List Node) :
    Except CompileError w.Built :=
  match ns with
  | [] => .ok ⟨[], w, rfl⟩
  | n :: rest => do
    let b ← build r s parent w n
    let more ← buildAll r s parent b.after rest
    pure (b.append more)
termination_by (r.unseen w.opened, sizeOf ns)
decreasing_by
  · exact Prod.Lex.right _ (by rw [List.cons.sizeOf_spec]; omega)
  · rw [b.opened]
    exact Prod.Lex.right _ (by rw [List.cons.sizeOf_spec]; omega)

end

/-! ### Blocks that are written -/

/-- A block written behind the last id. -/
def taking (w : Assembly) (b : Block) : w.Built := ⟨b.heads, w.extend b.jobs, rfl⟩

/-- A forest written under `parent` behind the last id, its trees not yet chained. -/
def numbered (w : Assembly) (parent : Option JobId) (f : Forest) : w.Built :=
  w.taking (Block.ofForest parent w.lastId f)

theorem Built.ext {w : Assembly} {b c : w.Built} (hh : b.heads = c.heads)
    (ha : b.after = c.after) : b = c := by
  obtain ⟨heads, after, h⟩ := b
  obtain ⟨heads', after', h'⟩ := c
  cases hh
  cases ha
  rfl

theorem numbered_after_lastId (w : Assembly) (parent : Option JobId) (f : Forest) :
    (w.numbered parent f).after.lastId = w.lastId + forestSize f := by
  simp [numbered, taking, Block.ofForest, numberAll_length]

theorem numbered_append (w : Assembly) (parent : Option JobId) (f g : Forest) :
    (w.numbered parent f).append ((w.numbered parent f).after.numbered parent g) =
      w.numbered parent (f ++ g) := by
  have hlast := numbered_after_lastId w parent f
  refine Built.ext ?_ ?_
  · simp only [Built.append, numbered, taking] at hlast ⊢
    rw [hlast, Block.ofForest_append]
    rfl
  · simp only [Built.append, numbered, taking] at hlast ⊢
    rw [hlast, Block.ofForest_append, ← extend_append]
    rfl

/-- Chaining a forest that has been written is writing it as a chain. -/
theorem numbered_chained (w : Assembly) (parent : Option JobId) (f : Forest) :
    (w.numbered parent f).chained = w.taking (Block.ofForest parent w.lastId f).chained := by
  refine Built.ext rfl (chain_extend ?_ fun id hid => ?_)
  · simpa [Block.ofForest, numberAll_ids] using List.nodup_range'
  · have hb := headIds_bounds hid
    simpa [Block.ofForest, numberAll_ids] using hb

/-- The jobs that stand below a job have other ids. -/
theorem holding_ids_nodup {j : Job} {last : JobId} (hj : j.id = last + 1) (chained : Bool)
    (f : Forest) :
    ((j :: numberAll chained (some (last + 1)) (last + 2) f).map Job.id).Nodup := by
  rw [List.map_cons, numberAll_ids, hj, List.nodup_cons, List.mem_range'_1]
  exact ⟨by lia, List.nodup_range'⟩

/-- A job whose links below it are set when all that stands there has been written. -/
theorem setBranches_push {w : Assembly} {job : JobId → Job}
    (hj : (job (w.lastId + 1)).id = w.lastId + 1) (chained : Bool) (f : Forest)
    (ids : List JobId) :
    ((w.push job).extend (numberAll chained (some (w.lastId + 1)) (w.lastId + 2) f)).setBranches
        (w.lastId + 1) ids =
      w.extend ({ job (w.lastId + 1) with branches := if ids.isEmpty then none else some ids } ::
        numberAll chained (some (w.lastId + 1)) (w.lastId + 2) f) := by
  rw [push_eq_extend job hj, ← extend_append, List.singleton_append]
  exact (congrArg (Assembly.amend _ · _) hj.symm).trans
    (amend_extend_cons (holding_ids_nodup hj chained f) fun _ => rfl)

theorem numbered_singleton_after (w : Assembly) (parent : Option JobId) (kind : JobKind)
    (keys : List ArgKey) (values : List Value) (f : Forest) :
    (w.numbered parent [.node kind keys values f]).after =
      w.extend (⟨w.lastId + 1, kind.worker, keys, values, parent,
        kind.listed (headIds (w.lastId + 2) f), none⟩ ::
          numberAll kind.chains (some (w.lastId + 1)) (w.lastId + 2) f) := by
  simp [numbered, taking, Block.ofForest, numberAll, headIds, JobTree.number]

theorem numbered_chained_after (w : Assembly) (parent : Option JobId) (f : Forest) :
    (w.numbered parent f).chained.after =
      w.extend (numberAll true parent (w.lastId + 1) f) := by
  rw [numbered_chained, Block.ofForest_chained]
  rfl

theorem listed_call (name : String) (heads : List JobId) :
    (JobKind.call name).listed heads =
      if (heads.take 1).isEmpty then none else some (heads.take 1) := by
  cases heads <;> rfl

section Phrases

variable {w : Assembly} {parent : Option JobId} {name : String} {keys : List ArgKey}
  {values : List Value} {f g : Forest}

theorem push_eq_numbered :
    (⟨[w.lastId + 1], w.push (plainJob · name keys values parent), rfl⟩ : w.Built) =
      w.numbered parent [.node (.call name) keys values []] := by
  refine Built.ext rfl ?_
  rw [numbered_singleton_after]
  exact push_eq_extend (plainJob · name keys values parent) rfl

/-- A call whose block runs below it. -/
theorem listing_eq_numbered {below : Assembly} {heads : List JobId} {h : below.opened = w.opened}
    (hb : below = (w.push (plainJob · name keys values parent)).extend
      (numberAll true (some (w.lastId + 1)) (w.lastId + 2) f))
    (hh : heads.take 1 = (headIds (w.lastId + 2) f).take 1) :
    (.listing (w.lastId + 1) below (heads.take 1) h : w.Built) =
      w.numbered parent [.node (.call name) keys values f] := by
  refine Built.ext rfl ?_
  rw [numbered_singleton_after, listed_call, ← hh]
  subst hb
  exact setBranches_push rfl ..

/-- A batch whose branches have been written below it. -/
theorem listing_batch {bindings : List Binding} {below : Assembly} {heads : List JobId}
    {h : below.opened = w.opened}
    (hb : below = ((w.push (batchJob · bindings parent)).numbered (some (w.lastId + 1)) f).after)
    (hh : heads = headIds (w.lastId + 2) f) :
    (.listing (w.lastId + 1) below heads h : w.Built) =
      w.numbered parent [batchTree bindings f] := by
  refine Built.ext rfl ?_
  rw [batchTree, numbered_singleton_after, JobKind.listed, ← hh]
  subst hb
  exact setBranches_push rfl ..

/-- A branch of a batch whose body has been written below it and chained. -/
theorem branch_eq_numbered {batch : JobId} {elements : List String} {row : List Value}
    {below : Assembly} {h : below.opened = w.opened}
    (hb : below = (w.push (plainJob · branchName (elements.map .name) row (some batch))).extend
      (numberAll true (some (w.lastId + 1)) (w.lastId + 2) f)) :
    (⟨[w.lastId + 1], below, h⟩ : w.Built) =
      w.numbered (some batch) [.node .branch (elements.map .name) row f] := by
  refine Built.ext rfl ?_
  rw [numbered_singleton_after]
  rw [push_eq_extend (plainJob · branchName _ row _) rfl, ← extend_append] at hb
  exact hb

end Phrases

/-- What is written while a superworker is open is there when it is left. -/
theorem leave_numbered_chained (w : Assembly) (name : String) (parent : Option JobId)
    (f : Forest) : ((w.enter name).numbered parent f).chained.after.leave =
      w.extend (numberAll true parent (w.lastId + 1) f) := by
  rw [numbered_chained_after]
  rfl

/-- A chain written behind another one and joined to it. -/
theorem join_numbered {w x : Assembly} {parent : Option JobId} {f g : Forest}
    (hx : x = w.extend (numberAll true parent (w.lastId + 1) f)) (hf : f ≠ []) (hg : g ≠ []) :
    (x.numbered parent g).chained.after.join (headIds (w.lastId + 1) f)
        (x.numbered parent g).heads =
      w.extend (numberAll true parent (w.lastId + 1) (f ++ g)) := by
  have hlast : x.lastId + 1 = w.lastId + 1 + forestSize f := by
    rw [hx, extend_lastId, numberAll_length]
    lia
  have hjobs : (x.numbered parent g).chained.after =
      w.extend (numberAll true parent (w.lastId + 1) f ++
        numberAll true parent (w.lastId + 1 + forestSize f) g) := by
    rw [numbered_chained_after, hlast, hx, extend_append]
  have hheads : (x.numbered parent g).heads = headIds (w.lastId + 1 + forestSize f) g := by
    rw [← hlast]
    rfl
  obtain ⟨a, ha⟩ : ∃ a, (headIds (w.lastId + 1) f).getLast? = some a := by
    cases f with
    | nil => exact absurd rfl hf
    | cons t f => exact ⟨_, List.getLast?_cons⟩
  obtain ⟨b, hb⟩ : ∃ b, (headIds (w.lastId + 1 + forestSize f) g).head? = some b := by
    cases g with
    | nil => exact absurd rfl hg
    | cons t g => exact ⟨_, rfl⟩
  have hids : (numberAll true parent (w.lastId + 1) f ++
      numberAll true parent (w.lastId + 1 + forestSize f) g).map Job.id =
        List.range' (w.lastId + 1) (forestSize f + forestSize g) := by
    rw [List.map_append, numberAll_ids, numberAll_ids, List.range'_append_1]
  have hmem : a ∈ List.range' (w.lastId + 1) (forestSize f + forestSize g) := by
    have hbounds := headIds_bounds (List.mem_of_getLast? ha)
    rw [List.mem_range'_1]
    lia
  simp only [hjobs, hheads, join, ha, hb]
  rw [setNext_extend (hids ▸ List.nodup_range') (hids ▸ hmem), link_numberAll ha hb]

/-! ### What compiling in place writes -/

section Rows

variable {opened : List String}
  {body : Scope → (w : Assembly) → w.opened = opened → Except CompileError w.Built}
  {grow : Scope → Except CompileError Forest}

theorem buildBranch_eq_expand
    (hbody : ∀ s w hw, body s w hw = (grow s).map (w.numbered (some w.lastId))) (s : Scope)
    (elements : List String) (batch : JobId) (w : Assembly) (h : w.opened = opened)
    (row : List Value) :
    buildBranch opened body s elements batch w h row = (grow (s.bind elements row)).map fun f =>
      w.numbered (some batch) [.node .branch (elements.map .name) row f] := by
  rw [buildBranch, hbody]
  cases grow (s.bind elements row) with
  | error e => rfl
  | ok f => exact congrArg Except.ok (branch_eq_numbered (numbered_chained_after ..))

/-- The branches of a batch, given that its body is written by expanding it. -/
theorem buildRows_eq_expandRows
    (hbody : ∀ s w hw, body s w hw = (grow s).map (w.numbered (some w.lastId))) (s : Scope)
    (elements : List String) (batch : JobId) (w : Assembly) (h : w.opened = opened)
    (table : List (List Value)) :
    buildRows opened body s elements batch w h table =
      (expandRows grow s elements table).map (w.numbered (some batch)) := by
  induction table generalizing w with
  | nil => rfl
  | cons row rest ih =>
    rw [buildRows, expandRows, buildBranch_eq_expand hbody]
    cases grow (s.bind elements row) with
    | error e => rfl
    | ok f =>
      simp only [Except.map, bind, Except.bind] at ih ⊢
      rw [ih]
      cases expandRows grow s elements rest with
      | error e => rfl
      | ok more => exact congrArg Except.ok (numbered_append ..)

end Rows

/-- The steps of a sequence, given that each is written by expanding it. -/
theorem buildAll_eq_expandAll {r : Registry} {opened : List String} {s : Scope} {ns : List Node}
    (hn : ∀ n ∈ ns, ∀ parent w, w.opened = opened → build r s parent w n =
      (expand r opened s n).map (w.numbered parent))
    (parent : Option JobId) (w : Assembly) (h : w.opened = opened) :
    buildAll r s parent w ns = (expandAll r opened s ns).map (w.numbered parent) := by
  induction ns generalizing w with
  | nil =>
    rw [buildAll, expandAll]
    rfl
  | cons n rest ih =>
    rw [buildAll, expandAll, hn n List.mem_cons_self parent w h]
    cases expand r opened s n with
    | error e => rfl
    | ok f =>
      have hrest := ih (fun m hm => hn m (List.mem_cons_of_mem _ hm))
        (w.numbered parent f).after h
      simp only [Except.map, bind, Except.bind, hrest]
      cases expandAll r opened s rest with
      | error e => rfl
      | ok g => exact congrArg Except.ok (numbered_append ..)

section Calls

variable {r : Registry} {opened : List String} {s : Scope} {w : Assembly} {name : String}
  {args : List Arg} {nested : Option Node} {span : Span}

/-- The call of a worker, given that its block is written by expanding it. -/
theorem build_worker_eq_expand (hd : r.get? name = none) (h : w.opened = opened)
    (hn : ∀ body, nested = some body → ∀ parent w, w.opened = opened → build r s parent w body =
      (expand r opened s body).map (w.numbered parent)) (parent : Option JobId) :
    build r s parent w (.call name args nested span) =
      (expand r opened s (.call name args nested span)).map (w.numbered parent) := by
  rw [build, expand_worker hd]
  split
  · rename_i d hd'
    cases hd.symm.trans hd'
  split
  · cases evaluate s args with
    | error e => rfl
    | ok values =>
      cases nested with
      | none => exact congrArg Except.ok push_eq_numbered
      | some body =>
        simp only [bind, Except.bind, expandBlock]
        rw [hn body rfl _ _ ((push_opened ..).trans h)]
        cases expand r opened s body with
        | error e => rfl
        | ok f => exact congrArg Except.ok (listing_eq_numbered (numbered_chained_after ..) rfl)
  · rfl

/-- The call of a superworker, given that its body and its block are written by expanding them. -/
theorem build_superworker_eq_expand {d : Definition} (hd : r.get? name = some d)
    (h : w.opened = opened)
    (hb : name ∉ opened → ∀ s parent w, w.opened = name :: opened → build r s parent w d.body =
      (expand r (name :: opened) s d.body).map (w.numbered parent))
    (hn : ∀ body, nested = some body → ∀ parent w, w.opened = opened → build r s parent w body =
      (expand r opened s body).map (w.numbered parent)) (parent : Option JobId) :
    build r s parent w (.call name args nested span) =
      (expand r opened s (.call name args nested span)).map (w.numbered parent) := by
  rw [build, expand_superworker hd]
  split
  · rename_i d' hd'
    cases hd.symm.trans hd'
    subst h
    split
    · rfl
    split
    · rfl
    rename_i ho
    cases evaluate s args with
    | error e => rfl
    | ok values =>
      simp only [bind, Except.bind]
      rw [hb ho _ _ _ (by rw [enter_opened, push_opened])]
      cases hf : expand r (name :: w.opened) (Scope.bind SortedMap.empty d.parameters values)
        d.body with
      | error e => rfl
      | ok f =>
        let call := w.push (plainJob · name (argNames args) values parent)
        have hleft := leave_numbered_chained call name (some call.lastId) f
        cases nested with
        | none =>
          simp only [expandBlock, Except.map, List.append_nil]
          exact congrArg Except.ok (listing_eq_numbered hleft rfl)
        | some body =>
          simp only [expandBlock, Except.map]
          -- The block is written behind the body, when the superworker has been left.
          have hopened : ((call.enter name).numbered (some call.lastId)
              f).chained.after.leave.opened = w.opened := by
            rw [hleft, extend_opened, push_opened]
          rw [hn body rfl _ _ hopened]
          cases hg : expand r w.opened s body with
          | error e => rfl
          | ok g =>
            have hfne := expands_ne_nil (expand_eq_ok_iff.mp hf)
            have hgne := expands_ne_nil (expand_eq_ok_iff.mp hg)
            refine congrArg Except.ok (listing_eq_numbered (join_numbered hleft hfne hgne) ?_)
            cases f with
            | nil => exact absurd rfl hfne
            | cons t f => rfl
  · rename_i hd'
    cases hd.symm.trans hd'

end Calls

/-- Compiling in place writes the expansion, numbered behind the last id, and fails as the
expansion does. -/
theorem build_eq_expand (r : Registry) (opened : List String) (n : Node) (s : Scope)
    (parent : Option JobId) (w : Assembly) (h : w.opened = opened) :
    build r s parent w n = (expand r opened s n).map (w.numbered parent) := by
  induction opened, n using expansion_induction r generalizing s parent w with
  | sequence opened steps span ih =>
    rw [build, expand]
    split
    · rfl
    · exact buildAll_eq_expandAll (fun n hn parent w h => ih n hn s parent w h) parent w h
  | leaf opened worker args span =>
    rw [build, expand]
    split
    · cases evaluate s args with
      | error e => rfl
      | ok values => exact congrArg Except.ok push_eq_numbered
    · rfl
  | batch opened bindings body span ih =>
    rw [build, expand]
    split
    · rfl
    cases batchLists s bindings with
    | error e => rfl
    | ok lists =>
      simp only [bind, Except.bind]
      split
      · rfl
      rw [buildRows_eq_expandRows fun s' w' hw => ih s' (some w'.lastId) w' (hw.trans h)]
      cases expandRows (fun s' => expand r opened s' body) s (bindings.map Binding.element)
        (rows ((lists.head?.map List.length).getD 0) lists) with
      | error e => rfl
      | ok f => exact congrArg Except.ok (listing_batch rfl rfl)
  | call opened name args nested span ihd ihn =>
    have hn : ∀ body, nested = some body → ∀ parent w, w.opened = opened →
        build r s parent w body = (expand r opened s body).map (w.numbered parent) :=
      fun body hb parent w h => ihn body hb s parent w h
    cases hd : r.get? name with
    | none => exact build_worker_eq_expand hd h hn parent
    | some d => exact build_superworker_eq_expand hd h (ihd d hd) hn parent

end Assembly

end Workflow
