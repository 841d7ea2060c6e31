import Workflow.Proofs.Expand.Point
import Workflow.Proofs.Forest.Links
import Workflow.Proofs.Forest.Table

/-!
What the compiler is called with. It is given a tree at a point, the job that the tree's jobs stand
under and the last id that is taken, and it goes on to the trees below, each behind the jobs of what
comes before. So the jobs of every tree that it comes to stand in the table right behind the id that
was the last one.
-/

namespace Workflow

/-! ### Forests within a numbered tree -/

namespace JobTree

/-- The trees of a forest stand in a numbered tree one behind the other, under `parent` and right
behind the id `last`. -/
def Holds (root : JobTree) (parent : Option JobId) (last : JobId) (f : Forest) : Prop :=
  ∀ before t after, f = before ++ t :: after →
    ∃ next, ⟨parent, next, last + 1 + forestSize before, t⟩ ∈ root.sites

variable {root t : JobTree} {parent : Option JobId} {last : JobId} {f before after : Forest}

theorem holds_self (root : JobTree) : root.Holds none 0 [root] := by
  intro before t after h
  obtain ⟨rfl, rfl, -⟩ : before = [] ∧ root = t ∧ after = [] := by
    cases before with
    | nil =>
      cases h
      exact ⟨rfl, rfl, rfl⟩
    | cons u before => simp at h
  exact ⟨none, root.root_mem_sites⟩

theorem Holds.left (h : root.Holds parent last (f ++ after)) : root.Holds parent last f := by
  intro first t rest hf
  apply h first t (rest ++ after)
  simp [hf]

theorem Holds.right (h : root.Holds parent last (before ++ f)) :
    root.Holds parent (last + forestSize before) f := by
  intro first t rest hf
  obtain ⟨next, hx⟩ := h (before ++ first) t rest (by simp [hf])
  have hid : last + 1 + forestSize (before ++ first) =
      last + forestSize before + 1 + forestSize first := by
    rw [forestSize_append]
    lia
  rw [hid] at hx
  exact ⟨next, hx⟩

/-- What is under a tree stands right behind the tree's own job. -/
theorem Holds.below (h : root.Holds parent last (before ++ t :: after)) :
    root.Holds (some (last + forestSize before + 1)) (last + forestSize before + 1) t.subtrees := by
  intro first u rest hsub
  obtain ⟨next, hx⟩ := h before t after rfl
  have hchild := child_mem_sites hx hsub
  rw [Place.child, Nat.add_right_comm last 1] at hchild
  exact ⟨_, hchild⟩

theorem Holds.below_one (h : root.Holds parent last [t]) :
    root.Holds (some (last + 1)) (last + 1) t.subtrees := by
  have hfirst : root.Holds parent last ([] ++ t :: []) := h
  exact hfirst.below

end JobTree

/-! ### Spots -/

/-- A point with the job that the tree's jobs stand under and the last id that is taken. -/
structure Spot extends Point where
  parent : Option JobId
  last : JobId

namespace Spot

/-- Where the compiler starts: under a structural root if there are several top-level steps. -/
def start (args : Scope) (n : Node) : Spot :=
  if 1 < headCount n then ⟨⟨[], args, n⟩, some 1, 1⟩ else ⟨⟨[], args, n⟩, none, 0⟩

/-- What the compiler goes on to from a spot: a step behind the steps before it, the body of a batch
for a row behind the branches of those before it, the body of a superworker, or the block of a call,
which comes behind the body. -/
inductive Enters (r : Registry) : Spot → Spot → Prop
  | step {opened : List String} {s : Scope} {before after : List Node} {n : Node} {span : Span}
      {parent : Option JobId} {last : JobId} {b : Block}
      (hb : emitAll r opened s parent last before = .ok b) :
      Enters r ⟨⟨opened, s, .sequence (before ++ n :: after) span⟩, parent, last⟩
        ⟨⟨opened, s, n⟩, parent, b.lastId last⟩
  | row {opened : List String} {s : Scope} {bindings : List Binding} {body : Node} {span : Span}
      {parent : Option JobId} {last : JobId} {lists before after : List (List Value)}
      {row : List Value} {b : Block} (hl : batchLists s bindings = .ok lists)
      (hc : checkLengths ((lists.head?.map List.length).getD 0) bindings lists = .ok ())
      (hrows : rows ((lists.head?.map List.length).getD 0) lists = before ++ row :: after)
      (hb : branches (fun s' id => emit r opened s' (some id) id body) s
        (bindings.map Binding.element) (last + 1) (last + 1) before = .ok b) :
      Enters r ⟨⟨opened, s, .batch bindings body span⟩, parent, last⟩
        ⟨⟨opened, s.bind (bindings.map Binding.element) row, body⟩,
          some (b.lastId (last + 1) + 1), b.lastId (last + 1) + 1⟩
  | body {opened : List String} {s : Scope} {name : String} {args : List Arg}
      {nested : Option Node} {span : Span} {parent : Option JobId} {last : JobId} {d : Definition}
      {values : List Value} (hd : r.get? name = some d) (hlen : args.length = d.parameters.length)
      (ho : name ∉ opened) (hv : evaluate s args = .ok values) :
      Enters r ⟨⟨opened, s, .call name args nested span⟩, parent, last⟩
        ⟨⟨name :: opened, Scope.bind SortedMap.empty d.parameters values, d.body⟩,
          some (last + 1), last + 1⟩
  | block {opened : List String} {s : Scope} {name : String} {args : List Arg} {body : Node}
      {span : Span} {parent : Option JobId} {last : JobId} (hd : r.get? name = none) :
      Enters r ⟨⟨opened, s, .call name args (some body) span⟩, parent, last⟩
        ⟨⟨opened, s, body⟩, some (last + 1), last + 1⟩
  | tail {opened : List String} {s : Scope} {name : String} {args : List Arg} {body : Node}
      {span : Span} {parent : Option JobId} {last : JobId} {d : Definition} {values : List Value}
      {b : Block} (hd : r.get? name = some d) (hlen : args.length = d.parameters.length)
      (ho : name ∉ opened) (hv : evaluate s args = .ok values)
      (hb : emit r (name :: opened) (Scope.bind SortedMap.empty d.parameters values)
        (some (last + 1)) (last + 1) d.body = .ok b) :
      Enters r ⟨⟨opened, s, .call name args (some body) span⟩, parent, last⟩
        ⟨⟨opened, s, body⟩, some (last + 1), b.lastId (last + 1)⟩

/-- What the compiler comes to from a spot. -/
abbrev Visits (r : Registry) : Spot → Spot → Prop := Relation.ReflTransGen (Enters r)

/-- The tree at a spot expands, and its forest stands in `root` where the spot is. -/
def Stands (r : Registry) (root : JobTree) (x : Spot) : Prop :=
  ∃ f, expand r x.opened x.scope x.node = .ok f ∧ root.Holds x.parent x.last f

end Spot

/-! ### The parts of an expansion -/

section Parts

variable {r : Registry} {opened : List String} {s : Scope} {f : Forest}

theorem expandAll_middle {before after : List Node} {n : Node}
    (h : expandAll r opened s (before ++ n :: after) = .ok f) :
    ∃ fb fn fa, expandAll r opened s before = .ok fb ∧ expand r opened s n = .ok fn ∧
      f = fb ++ (fn ++ fa) := by
  induction before generalizing f with
  | nil =>
    rw [List.nil_append, expandAll] at h
    simp only [Except.bind_eq_ok_iff, Except.pure_eq_ok_iff] at h
    obtain ⟨fn, hn, fa, -, rfl⟩ := h
    exact ⟨[], fn, fa, by rw [expandAll], hn, rfl⟩
  | cons m before ih =>
    rw [List.cons_append, expandAll] at h
    simp only [Except.bind_eq_ok_iff, Except.pure_eq_ok_iff] at h
    obtain ⟨fm, hm, g, hg, rfl⟩ := h
    obtain ⟨fb, fn, fa, hb, hn, rfl⟩ := ih hg
    refine ⟨fm ++ fb, fn, fa, ?_, hn, (List.append_assoc _ _ _).symm⟩
    rw [expandAll, hm, hb]
    rfl

theorem expandRows_middle {body : Scope → Except CompileError Forest} {elements : List String}
    {before after : List (List Value)} {row : List Value}
    (h : expandRows body s elements (before ++ row :: after) = .ok f) :
    ∃ fb below fa, expandRows body s elements before = .ok fb ∧
      body (s.bind elements row) = .ok below ∧
      f = fb ++ .node .branch (elements.map .name) row below :: fa := by
  induction before generalizing f with
  | nil =>
    rw [List.nil_append, expandRows] at h
    simp only [Except.bind_eq_ok_iff, Except.pure_eq_ok_iff] at h
    obtain ⟨below, hbelow, fa, -, rfl⟩ := h
    exact ⟨[], below, fa, rfl, hbelow, rfl⟩
  | cons first before ih =>
    rw [List.cons_append, expandRows] at h
    simp only [Except.bind_eq_ok_iff, Except.pure_eq_ok_iff] at h
    obtain ⟨g, hg, more, hmore, rfl⟩ := h
    obtain ⟨fb, below, fa, hb, hbelow, rfl⟩ := ih hmore
    refine ⟨.node .branch (elements.map .name) first g :: fb, below, fa, ?_, hbelow, rfl⟩
    rw [expandRows, hg, hb]
    rfl

/-- The forest of a superworker's call is that of the body, and behind it that of the block. -/
theorem expand_superworker_parts {name : String} {args : List Arg} {nested : Option Node}
    {span : Span} {d : Definition} {values : List Value} (hd : r.get? name = some d)
    (hv : evaluate s args = .ok values)
    (h : expand r opened s (.call name args nested span) = .ok f) :
    ∃ g k, expand r (name :: opened) (Scope.bind SortedMap.empty d.parameters values) d.body =
        .ok g ∧ expandBlock r opened s nested = .ok k ∧
      f = [.node (.call name) (argNames args) values (g ++ k)] := by
  rw [expand_superworker hd] at h
  split at h
  · cases h
  split at h
  · cases h
  simp only [Except.bind_eq_ok_iff, Except.pure_eq_ok_iff] at h
  obtain ⟨values', hv', g, hg, k, hk, rfl⟩ := h
  obtain rfl := Except.ok.inj (hv.symm.trans hv')
  exact ⟨g, k, hg, hk, rfl⟩

/-- A block that is compiled by expanding ends right behind its forest. -/
theorem lastId_of_expand {x : Except CompileError Block} {y : Except CompileError Forest}
    {parent : Option JobId} {last : JobId} {b : Block}
    (hxy : x = y.map (Block.ofForest parent last)) (hx : x = .ok b) (hy : y = .ok f) :
    b.lastId last = last + forestSize f := by
  rw [hx, hy] at hxy
  cases hxy
  exact Block.ofForest_lastId parent last f

end Parts

namespace Spot

variable {r : Registry} {root : JobTree} {x y : Spot}

/-- What stands where the compiler is stands as well where it goes on to. -/
theorem Stands.enters (hx : x.Stands r root) (h : x.Enters r y) : y.Stands r root := by
  obtain ⟨f, hf, hholds⟩ := hx
  cases h with
  | @step opened s before after n span parent last b hb =>
    have hsome : (before ++ n :: after).isEmpty = false := by simp
    simp only [expand, hsome, Bool.false_eq_true, if_false] at hf
    obtain ⟨fb, fn, fa, hbefore, hn, rfl⟩ := expandAll_middle hf
    have hsteps : ∀ m ∈ before, ∀ parent last, emit r opened s parent last m =
        (expand r opened s m).map (Block.ofForest parent last) :=
      fun m _ parent last => emit_eq_expand r opened s parent last m
    have hlast : b.lastId last = last + forestSize fb :=
      lastId_of_expand (emitAll_eq_expandAll hsteps _ _) hb hbefore
    refine ⟨fn, hn, ?_⟩
    rw [hlast]
    exact hholds.right.left
  | @row opened s bindings body span parent last lists before after row b hl hc hrows hb =>
    rw [expand] at hf
    split at hf
    · cases hf
    simp only [Except.bind_eq_ok_iff, Except.pure_eq_ok_iff] at hf
    obtain ⟨lists', hl', _, -, g, hg, rfl⟩ := hf
    obtain rfl := Except.ok.inj (hl.symm.trans hl')
    rw [hrows] at hg
    obtain ⟨fb, below, fa, hbefore, hbelow, rfl⟩ := expandRows_middle hg
    have hbody : ∀ s' id, emit r opened s' (some id) id body =
        (expand r opened s' body).map (Block.ofForest (some id) id) :=
      fun s' id => emit_eq_expand r opened s' (some id) id body
    have hlast : b.lastId (last + 1) = last + 1 + forestSize fb :=
      lastId_of_expand (branches_eq_expandRows hbody _ _ _ _ _) hb hbefore
    refine ⟨below, hbelow, ?_⟩
    rw [hlast]
    -- Under the batch stand the branches, and under the branch of the row the body.
    exact hholds.below_one.below
  | @body opened s name args nested span parent last d values hd hlen ho hv =>
    obtain ⟨g, k, hg, -, rfl⟩ := expand_superworker_parts hd hv hf
    exact ⟨g, hg, hholds.below_one.left⟩
  | @block opened s name args body span parent last hd =>
    rw [expand_worker hd] at hf
    split at hf
    · simp only [Except.bind_eq_ok_iff, Except.pure_eq_ok_iff] at hf
      obtain ⟨values, -, g, hg, rfl⟩ := hf
      exact ⟨g, hg, hholds.below_one⟩
    · cases hf
  | @tail opened s name args body span parent last d values b hd hlen ho hv hb =>
    obtain ⟨g, k, hg, hk, rfl⟩ := expand_superworker_parts hd hv hf
    have hlast : b.lastId (last + 1) = last + 1 + forestSize g :=
      lastId_of_expand (emit_eq_expand ..) hb hg
    refine ⟨k, hk, ?_⟩
    rw [hlast]
    exact hholds.below_one.right

theorem Visits.stands (h : x.Visits r y) (hx : x.Stands r root) : y.Stands r root := by
  induction h with
  | refl => exact hx
  | tail _ hyz ih => exact ih.enters hyz

/-- A compiled table is that of a tree that has the whole forest where the compiler starts. -/
theorem stands_start {args : Scope} {n : Node} {t : Table} (h : compile r args n = .ok t) :
    ∃ root : JobTree, t = root.table ∧ (start args n).Stands r root := by
  obtain ⟨-, f, hf, rfl⟩ := compile_eq_ok_iff.mp h
  refine ⟨_, rfl, f, ?_⟩
  have hlen := expands_length hf
  have hself := (rooted args f).holds_self
  rw [start]
  split
  · rename_i hmany
    rw [rooted_of_one_lt (hlen ▸ hmany)] at hself ⊢
    exact ⟨expand_eq_ok_iff.mpr hf, hself.below_one⟩
  · rename_i hfew
    have hpos := List.length_pos_iff.mpr (expands_ne_nil hf)
    obtain ⟨t, rfl⟩ := List.length_eq_one_iff.mp (show f.length = 1 by lia)
    exact ⟨expand_eq_ok_iff.mpr hf, hself⟩

end Spot

end Workflow
