import Workflow.Proofs.Forest.Links
import Workflow.Proofs.Forest.Table

/-!
How the trees of an expansion are made, in whatever place they stand: among others, the values of
every job pair up with its keys. With the links of a numbered tree this makes every compiled table
sound.
-/

namespace Workflow

/-- Every key has a value. -/
def JobTree.Paired : JobTree → Prop
  | node _ keys values _ => keys.length = values.length

mutual

/-- A property of a tree and of all trees in it. -/
def JobTree.All (p : JobTree → Prop) : JobTree → Prop
  | .node kind keys values below => p (.node kind keys values below) ∧ allTrees p below

def allTrees (p : JobTree → Prop) : Forest → Prop
  | [] => True
  | t :: ts => t.All p ∧ allTrees p ts

end

theorem allTrees_append {p : JobTree → Prop} {f g : Forest} :
    allTrees p (f ++ g) ↔ allTrees p f ∧ allTrees p g := by
  induction f with
  | nil => simp [allTrees]
  | cons t f ih => simp [allTrees, ih, and_assoc]

mutual

theorem JobTree.All.place {p : JobTree → Prop} {parent next : Option JobId} {id : JobId}
    {x : Place} : {t : JobTree} → t.All p → x ∈ t.places parent next id → p x.tree
  | .node kind keys values below, h, hx => by
    rw [JobTree.All] at h
    rw [JobTree.places] at hx
    rcases List.mem_cons.mp hx with rfl | hx
    · exact h.1
    · exact allTrees_place h.2 hx

theorem allTrees_place {p : JobTree → Prop} {chained : Bool} {parent : Option JobId} {id : JobId}
    {x : Place} : {f : Forest} → allTrees p f → x ∈ placesAll chained parent id f → p x.tree
  | [], _, hx => by simp [placesAll] at hx
  | t :: ts, h, hx => by
    rw [allTrees] at h
    rw [placesAll] at hx
    rcases List.mem_append.mp hx with hx | hx
    · exact JobTree.All.place h.1 hx
    · exact allTrees_place h.2 hx

end

mutual

theorem JobTree.All.mono {p q : JobTree → Prop} (h : ∀ t, p t → q t) :
    {t : JobTree} → t.All p → t.All q
  | .node kind keys values below, ht => by
    rw [JobTree.All] at ht ⊢
    exact ⟨h _ ht.1, allTrees_mono h ht.2⟩

theorem allTrees_mono {p q : JobTree → Prop} (h : ∀ t, p t → q t) :
    {f : Forest} → allTrees p f → allTrees q f
  | [], _ => trivial
  | t :: ts, hf => by
    rw [allTrees] at hf ⊢
    exact ⟨JobTree.All.mono h hf.1, allTrees_mono h hf.2⟩

end

/-! ### The trees of an expansion -/

/-- How the trees of an expansion are made: every key has a value, an invocation is of a name that
can be invoked or of the root, and under a batch there are branches. -/
structure JobTree.Formed (r : Registry) (t : JobTree) : Prop where
  paired : t.Paired
  named : ∀ name, t.kind = .call name →
    r.hasWorker name = true ∨ (r.get? name).isSome = true ∨ name = superworkerName
  branches : t.kind = .batch → ∀ u ∈ t.subtrees, u.kind = .branch

theorem argNames_length (args : List Arg) : (argNames args).length = args.length := by
  simp [argNames]

section Formed

variable {r : Registry} {opened : List String} {s : Scope} {keys : List ArgKey}
  {values : List Value} {below f : Forest}

theorem formed_call {name : String} (h : keys.length = values.length)
    (hname : r.hasWorker name = true ∨ (r.get? name).isSome = true ∨ name = superworkerName) :
    (JobTree.node (.call name) keys values below).Formed r where
  paired := h
  named := by
    rintro _ ⟨⟩
    exact hname
  branches := nofun

theorem formed_branch (h : keys.length = values.length) :
    (JobTree.node .branch keys values below).Formed r where
  paired := h
  named := nofun
  branches := nofun

theorem formed_batch {bindings : List Binding} (h : ∀ t ∈ f, t.kind = .branch) :
    (batchTree bindings f).Formed r where
  paired := rfl
  named := nofun
  branches := fun _ => h

theorem expandsAll_formed {ns : List Node}
    (ih : ∀ n ∈ ns, ∀ f, Expands r opened s n f → allTrees (JobTree.Formed r) f)
    (h : ExpandsAll r opened s ns f) : allTrees (JobTree.Formed r) f := by
  induction ns generalizing f with
  | nil =>
    cases h
    trivial
  | cons n rest ihs =>
    cases h with
    | cons hn hrest =>
      refine allTrees_append.mpr ⟨ih n List.mem_cons_self _ hn, ?_⟩
      exact ihs (fun m hm => ih m (List.mem_cons_of_mem _ hm)) hrest

theorem expandsRows_formed {elements : List String} {body : Node} {table : List (List Value)}
    (ih : ∀ s f, Expands r opened s body f → allTrees (JobTree.Formed r) f)
    (hrows : ∀ row ∈ table, row.length = elements.length)
    (h : ExpandsRows r opened s elements body table f) :
    allTrees (JobTree.Formed r) f ∧ ∀ t ∈ f, t.kind = .branch := by
  induction table generalizing f with
  | nil =>
    cases h
    exact ⟨trivial, nofun⟩
  | cons row rest ihs =>
    cases h with
    | cons hb hm =>
      obtain ⟨hall, hkinds⟩ := ihs (fun w hw => hrows w (List.mem_cons_of_mem _ hw)) hm
      refine ⟨⟨⟨formed_branch ?_, ih _ _ hb⟩, hall⟩, List.forall_mem_cons.mpr ⟨rfl, hkinds⟩⟩
      rw [List.length_map, hrows row List.mem_cons_self]

theorem expands_formed {n : Node} (h : Expands r opened s n f) :
    allTrees (JobTree.Formed r) f := by
  induction opened, n using expansion_induction r generalizing s f with
  | sequence opened steps span ih =>
    cases h with
    | sequence _ h => exact expandsAll_formed (fun n hn f hf => ih n hn hf) h
  | leaf opened worker args span =>
    cases h with
    | leaf hw hv =>
      exact ⟨⟨formed_call ((argNames_length args).trans hv.length_eq) (.inl hw), trivial⟩, trivial⟩
  | batch opened bindings body span ih =>
    cases h with
    | batch hne hl hc hb =>
      have hrows := expandsRows_formed (fun s f hf => ih hf) ?_ hb
      · exact ⟨⟨formed_batch hrows.2, hrows.1⟩, trivial⟩
      · intro row hrow
        obtain ⟨k, hk, rfl⟩ := List.mem_map.mp hrow
        rw [elementsAt_length (List.mem_range.mp hk) hc, List.length_map, hl.length_eq]
  | call opened name args nested span ihd ihn =>
    have hblock : ∀ f, ExpandsBlock r opened s nested f → allTrees (JobTree.Formed r) f := by
      intro f hf
      cases hf with
      | absent => trivial
      | present hn => exact ihn _ rfl hn
    cases h with
    | worker hd hw hv hn =>
      have hlen := (argNames_length args).trans hv.length_eq
      exact ⟨⟨formed_call hlen (.inl hw), hblock _ hn⟩, trivial⟩
    | superworker hd ho hlen hv hb hn =>
      have hlen := (argNames_length args).trans hv.length_eq
      have hdef := Option.isSome_iff_exists.mpr ⟨_, hd⟩
      refine ⟨⟨formed_call hlen (.inr (.inl hdef)), ?_⟩, trivial⟩
      exact allTrees_append.mpr ⟨ihd _ hd ho hb, hblock _ hn⟩

theorem rooted_formed {args : Scope} (h : allTrees (JobTree.Formed r) f) :
    (rooted args f).All (JobTree.Formed r) := by
  have hargs : (args.keys.map ArgKey.name).length = args.values.length := by
    simp [SortedMap.keys, SortedMap.values]
  have hroot :
      (JobTree.node (.call superworkerName) (args.keys.map .name) args.values f).Formed r :=
    formed_call hargs (.inr (.inr rfl))
  cases f with
  | nil => exact ⟨hroot, h⟩
  | cons t f =>
    cases f with
    | nil => exact h.1
    | cons u f => exact ⟨hroot, h⟩

end Formed

theorem formed_of_compile {r : Registry} {args : Scope} {n : Node} {t : Table}
    (h : compile r args n = .ok t) :
    ∃ root : JobTree, t = root.table ∧ root.All (JobTree.Formed r) := by
  rw [compile_eq_expand, Except.bind_eq_ok_iff] at h
  obtain ⟨-, -, h⟩ := h
  obtain ⟨f, hf, rfl⟩ := Except.map_eq_ok_iff.mp h
  exact ⟨rooted args f, rfl, rooted_formed (expands_formed (expand_eq_ok_iff.mp hf))⟩

/-- A compiled table is the table of a tree whose keys and values pair up. -/
theorem tree_of_compile {r : Registry} {args : Scope} {n : Node} {t : Table}
    (h : compile r args n = .ok t) :
    ∃ root : JobTree, t = root.table ∧ root.All JobTree.Paired := by
  obtain ⟨root, ht, hroot⟩ := formed_of_compile h
  exact ⟨root, ht, hroot.mono fun _ hu => hu.paired⟩

namespace JobTree

theorem site_fits {root : JobTree} (hp : root.All Paired) {x : Place} (hx : x ∈ root.sites) :
    root.table.Fits x.job where
  paired := by
    have h : x.tree.Paired := hp.place hx
    obtain ⟨_, _, _, kind, keys, values, below⟩ := x
    exact h
  parent := by
    intro o ho
    rw [Place.job_parent] at ho
    obtain ⟨y, hy, rfl, hlt, -⟩ := site_parent hx ho
    rw [SortedMap.contains, table_get? hy, Place.job_id]
    exact ⟨rfl, hlt⟩
  listed := by
    intro ids hids
    rw [Place.job_branches] at hids
    obtain ⟨hne, hmem⟩ := JobKind.listed_eq_some hids
    refine ⟨hne, fun b hb => ?_⟩
    obtain ⟨y, hy, rfl, hyo⟩ := site_head hx (hmem b hb)
    exact ⟨y.job, table_get? hy, by rw [Place.job_parent, Place.job_id, hyo]⟩
  next := by
    intro n hn
    rw [Place.job_next] at hn
    obtain ⟨-, y, hy, rfl, hyo⟩ := site_next hx hn
    exact ⟨y.job, table_get? hy, by rw [Place.job_parent, Place.job_parent, hyo]⟩

theorem follows_lt {root : JobTree} {a b : JobId} (h : root.table.Follows a b) : a < b := by
  obtain ⟨j, hj, hn⟩ := Option.bind_eq_some_iff.mp h
  obtain ⟨x, hx, rfl, rfl⟩ := table_get?_iff.mp hj
  rw [Place.job_next] at hn
  exact site_next_lt hx hn

/-- The table of a tree whose keys and values pair up is sound. -/
theorem table_sound {root : JobTree} (hp : root.All Paired) : root.table.Sound 1 where
  keys := by rw [table_keys, table_size]
  has_root := ⟨_, mem_table_jobs_iff.mpr ⟨_, root.root_mem_sites, rfl⟩, Place.job_id _⟩
  root_iff := by
    intro j hj
    obtain ⟨x, hx, rfl⟩ := mem_table_jobs_iff.mp hj
    rw [Place.job_parent, Place.job_id]
    exact site_parent_eq_none_iff hx
  fits := by
    intro j hj
    obtain ⟨x, hx, rfl⟩ := mem_table_jobs_iff.mp hj
    exact site_fits hp hx
  once := by
    intro j hj k hk n hjn hkn
    obtain ⟨x, hx, rfl⟩ := mem_table_jobs_iff.mp hj
    obtain ⟨y, hy, rfl⟩ := mem_table_jobs_iff.mp hk
    rw [Place.job_next] at hjn hkn
    rw [site_next_inj hx hy hjn hkn]
  acyclic := by
    intro id h
    have hlt : root.table.Follows ≤ (· < ·) := fun _ _ => follows_lt
    exact Nat.lt_irrefl id (Relation.transGen_minimal hlt id id h)

end JobTree

end Workflow
