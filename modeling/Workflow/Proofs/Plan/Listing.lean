import Workflow.Proofs.Plan.Branching
import Workflow.Proofs.Plan.Outline

/-!
The outline of a compiled plan. What the outline lists is what comes of a stack of jobs that are
still to be shown, where a job leaves its branches and then its follower on the stack. For a
compiled plan these are all its jobs in the order of their ids, each as deep as there are jobs
above it.
-/

namespace Workflow

namespace Plan

/-- What comes of a stack of jobs, each with its level. The job on top gives a line, and its
branches and what follows it take its place. -/
inductive Draws (p : Plan) : List (JobId × Nat) → List OutlineLine → Prop
  | done : Draws p [] []
  | skip {id : JobId} {level : Nat} {rest : List (JobId × Nat)} {lines : List OutlineLine}
      (hid : p.get? id = none) (h : Draws p rest lines) : Draws p ((id, level) :: rest) lines
  | draw {id : JobId} {level : Nat} {j : Job} {rest : List (JobId × Nat)}
      {lines : List OutlineLine} (hj : p.get? id = some j)
      (h : Draws p ((p.branches id).map (·, level + 1) ++
        ((p.next? id).toList.map (·, level) ++ rest)) lines) :
      Draws p ((id, level) :: rest) (⟨level, id, j.worker, j.values⟩ :: lines)

/-- The jobs above a job, each once. -/
def IsAbove (p : Plan) (above : List JobId) (id : JobId) : Prop :=
  above.Nodup ∧ ∀ a, a ∈ above ↔ Relation.TransGen (fun c o => p.parent? c = some o) id a

variable {p : Plan} {id o : JobId} {level bound : Nat} {rest : List (JobId × Nat)}
  {lines lines' after : List OutlineLine} {above : List JobId}

theorem Draws.unique {stack : List (JobId × Nat)} (h : p.Draws stack lines)
    (h' : p.Draws stack lines') : lines = lines' := by
  induction h generalizing lines' with
  | done =>
    cases h'
    rfl
  | skip hid _ ih =>
    cases h' with
    | skip _ h' => exact ih h'
    | draw hj _ => cases hid.symm.trans hj
  | draw hj _ ih =>
    cases h' with
    | skip hid _ => cases hid.symm.trans hj
    | draw hj' h' =>
      obtain rfl := Option.some.inj (hj.symm.trans hj')
      rw [ih h']

theorem draws_mapM {ids : List JobId} {below : List (List OutlineLine)}
    (hone : ∀ {id lines rest after}, p.outlineFrom bound level id = some lines →
      p.Draws rest after → p.Draws ((id, level) :: rest) (lines ++ after))
    (h : ids.mapM (p.outlineFrom bound level) = some below) (hrest : p.Draws rest after) :
    p.Draws (ids.map (·, level) ++ rest) (below.flatten ++ after) := by
  induction ids generalizing below with
  | nil =>
    obtain rfl : [] = below := by simpa using h
    exact hrest
  | cons id ids ih =>
    rw [List.mapM_cons] at h
    obtain ⟨first, hfirst, h⟩ := Option.bind_eq_some_iff.mp h
    obtain ⟨others, hothers, h⟩ := Option.bind_eq_some_iff.mp h
    obtain rfl : first :: others = below := by simpa using h
    rw [List.flatten_cons, List.append_assoc]
    exact hone hfirst (ih hothers)

/-- The lines from a job on come of a stack that it is on top of. -/
theorem draws_outlineFrom (h : p.outlineFrom bound level id = some lines)
    (hrest : p.Draws rest after) : p.Draws ((id, level) :: rest) (lines ++ after) := by
  induction bound generalizing level id lines rest after with
  | zero => cases h
  | succ bound ih =>
    cases hj : p.get? id with
    | none =>
      rw [outlineFrom_of_get?_none hj] at h
      obtain rfl := Option.some.inj h
      exact .skip hj hrest
    | some j =>
      rw [outlineFrom_of_get? hj] at h
      obtain ⟨below, hbelow, h⟩ := Option.bind_eq_some_iff.mp h
      obtain ⟨behind, hbehind, rfl⟩ := Option.map_eq_some_iff.mp h
      have hnext : p.Draws ((p.next? id).toList.map (·, level) ++ rest) (behind ++ after) := by
        rw [next?, hj, Option.bind_some]
        cases hn : j.next with
        | none =>
          rw [hn] at hbehind
          obtain rfl := Option.some.inj hbehind
          exact hrest
        | some n =>
          rw [hn] at hbehind
          exact ih hbehind hrest
      have hall := draws_mapM (fun h hrest => ih h hrest) hbelow hnext
      rw [List.append_assoc]
      exact .draw hj hall

theorem draws_of_outline? (h : p.outline? = some lines) : p.Draws [(p.root, 0)] lines := by
  have := draws_outlineFrom h .done
  rwa [List.append_nil] at this

/-! ### The jobs above a job -/

theorem isAbove_nil (h : p.parent? id = none) : p.IsAbove [] id := by
  refine ⟨List.nodup_nil, fun a => ⟨nofun, fun ha => ?_⟩⟩
  obtain ⟨o, ho, -⟩ := Relation.TransGen.head'_iff.mp ha
  cases h.symm.trans ho

theorem lt_of_above (hb : p.Branching) {a : JobId}
    (h : Relation.TransGen (fun c o => p.parent? c = some o) id a) : a < id := by
  induction h with
  | single ho => exact (hb.parent _ _ ho).2
  | tail _ ho ih => exact (hb.parent _ _ ho).2.trans ih

/-- Above a job are its parent and the jobs above that. -/
theorem IsAbove.cons (hb : p.Branching) (ho : p.parent? id = some o) (h : p.IsAbove above o) :
    p.IsAbove (o :: above) id := by
  obtain ⟨hnodup, hmem⟩ := h
  constructor
  · refine List.nodup_cons.mpr ⟨fun hin => ?_, hnodup⟩
    exact absurd (lt_of_above hb ((hmem o).mp hin)) (Nat.lt_irrefl o)
  · intro a
    rw [List.mem_cons, hmem]
    constructor
    · rintro (rfl | ha)
      · exact .single ho
      · exact .head ho ha
    · intro ha
      obtain ⟨o', ho', ha⟩ := Relation.TransGen.head'_iff.mp ha
      obtain rfl := Option.some.inj (ho.symm.trans ho')
      rcases Relation.reflTransGen_iff_eq_or_transGen.mp ha with rfl | ha
      · exact .inl rfl
      · exact .inr ha

end Plan

/-- A line shows a job of a plan, and how many jobs are above that one. -/
structure OutlineLine.Shows (p : Plan) (l : OutlineLine) : Prop where
  job : ∃ j, p.get? l.id = some j ∧ l.worker = j.worker ∧ l.values = j.values
  level : ∃ above, p.IsAbove above l.id ∧ l.level = above.length

/-! ### The lines of a tree -/

mutual

def JobTree.lines (level : Nat) (id : JobId) : JobTree → List OutlineLine
  | .node kind _ values below =>
    ⟨level, id, kind.worker, values⟩ :: linesAll (level + 1) (id + 1) below

def linesAll (level : Nat) (id : JobId) : Forest → List OutlineLine
  | [] => []
  | t :: ts => t.lines level id ++ linesAll level (id + t.size) ts

end

mutual

theorem JobTree.lines_ids (level : Nat) (id : JobId) :
    (t : JobTree) → (t.lines level id).map OutlineLine.id = List.range' id t.size
  | .node kind keys values below => by
    rw [JobTree.lines, JobTree.size, List.map_cons, linesAll_ids _ _ below, List.range'_succ]

theorem linesAll_ids (level : Nat) (id : JobId) :
    (f : Forest) → (linesAll level id f).map OutlineLine.id = List.range' id (forestSize f)
  | [] => rfl
  | t :: ts => by
    rw [linesAll, forestSize, List.map_append, JobTree.lines_ids _ _ t, linesAll_ids _ _ ts,
      List.range'_append_1]

end

namespace Plan

section Tree

variable {p : Plan} {root : JobTree}

mutual

theorem shows_lines {parent next : Option JobId} {id : JobId} {above : List JobId}
    (hp : p.table = root.table) (hb : p.Branching) :
    (t : JobTree) → (∀ x ∈ t.places parent next id, x ∈ root.sites) → p.IsAbove above id →
      ∀ l ∈ t.lines above.length id, l.Shows p
  | .node kind keys values below, hsites, habove => by
    rw [JobTree.places] at hsites
    have hsite := hsites _ List.mem_cons_self
    intro l hl
    rw [JobTree.lines] at hl
    rcases List.mem_cons.mp hl with rfl | hl
    · exact ⟨⟨_, get?_site hp hsite, rfl, rfl⟩, above, habove, rfl⟩
    · exact shows_linesAll hp hb below (fun x hx => hsites x (List.mem_cons_of_mem _ hx)) habove
        l hl

theorem shows_linesAll {chained : Bool} {id o : JobId} {above : List JobId}
    (hp : p.table = root.table) (hb : p.Branching) :
    (f : Forest) → (∀ x ∈ placesAll chained (some o) id f, x ∈ root.sites) → p.IsAbove above o →
      ∀ l ∈ linesAll (above.length + 1) id f, l.Shows p
  | [], _, _ => by
    intro l hl
    cases hl
  | t :: ts, hsites, habove => by
    rw [placesAll] at hsites
    have hfirst := fun x hx => hsites x (List.mem_append_left _ hx)
    have hparent : p.parent? id = some o :=
      parent?_site hp (hfirst _ (t.mem_places_self _ _ _))
    intro l hl
    rw [linesAll] at hl
    rcases List.mem_append.mp hl with hl | hl
    · exact shows_lines hp hb t hfirst (habove.cons hb hparent) l hl
    · exact shows_linesAll hp hb ts (fun x hx => hsites x (List.mem_append_right _ hx)) habove l hl

end

mutual

/-- The job of a tree on top of a stack gives the lines of the tree, before what follows it. -/
theorem draws_lines {parent next : Option JobId} {id : JobId} {level : Nat}
    {rest : List (JobId × Nat)} {after : List OutlineLine} (hp : p.table = root.table) :
    (t : JobTree) → (∀ x ∈ t.places parent next id, x ∈ root.sites) →
      p.Draws (next.toList.map (·, level) ++ rest) after →
      p.Draws ((id, level) :: rest) (t.lines level id ++ after)
  | .node kind keys values below, hsites, hnext => by
    rw [JobTree.places] at hsites
    have hsite := hsites _ List.mem_cons_self
    have hbranches : p.branches id =
        if kind.chains then (headIds (id + 1) below).head?.toList else headIds (id + 1) below :=
      branches_site hp hsite
    have hfollower : p.next? id = next := next?_site hp hsite
    rw [JobTree.lines, List.cons_append]
    refine .draw (get?_site hp hsite) ?_
    rw [hbranches, hfollower]
    exact draws_linesAll hp below (fun x hx => hsites x (List.mem_cons_of_mem _ hx)) hnext

/-- Where the trees of a forest follow one another, the first is enough to get to them all. -/
theorem draws_linesAll {chained : Bool} {parent : Option JobId} {id : JobId} {level : Nat}
    {rest : List (JobId × Nat)} {after : List OutlineLine} (hp : p.table = root.table) :
    (f : Forest) → (∀ x ∈ placesAll chained parent id f, x ∈ root.sites) →
      p.Draws rest after →
      p.Draws ((if chained then (headIds id f).head?.toList else headIds id f).map (·, level) ++
        rest) (linesAll level id f ++ after)
  | [], _, hrest => by
    cases chained <;> exact hrest
  | t :: ts, hsites, hrest => by
    rw [placesAll] at hsites
    have hfirst := fun x hx => hsites x (List.mem_append_left _ hx)
    have hothers := fun x hx => hsites x (List.mem_append_right _ hx)
    rw [linesAll, List.append_assoc, headIds]
    cases chained with
    | true => exact draws_lines hp t hfirst (draws_linesAll hp ts hothers hrest)
    | false => exact draws_lines hp t hfirst (draws_linesAll hp ts hothers hrest)

end

end Tree

end Plan

/-- The outline of a compiled plan has an end, and each job has one line in it, in the order of the
ids: two blanks for each job above it, its id, its worker and its arguments. -/
theorem compiled_outline {r : Registry} {args : Scope} {n : Node} {t : Table}
    (h : compile r args n = .ok t) :
    ∃ p lines, Plan.ofTable t = .ok p ∧ p.table = t ∧ p.outline? = some lines ∧
      p.Draws [(p.root, 0)] lines ∧
      p.outlineText? = some (String.join (lines.map OutlineLine.text)) ∧
      lines.map OutlineLine.id = List.range' 1 t.size ∧
      ∀ l ∈ lines, ∃ j above, t.get? l.id = some j ∧ p.IsAbove above l.id ∧
        l.text = String.ofList (List.replicate (2 * above.length) ' ') ++
          s!"{j.id} {j.worker}(" ++ ", ".intercalate (j.values.map Value.compact) ++ ")\n" := by
  obtain ⟨root, rfl, -⟩ := tree_of_compile h
  have haccepted := checkTable_compiled h
  let p : Plan := ⟨root.table, 1, haccepted⟩
  have hb : p.Branching := Plan.branching_of_compile h
  have hdraws : p.Draws [(p.root, 0)] (root.lines 0 1) := by
    have hall : p.Draws [(1, 0)] (root.lines 0 1 ++ []) :=
      Plan.draws_lines rfl root (fun x hx => hx) .done
    rwa [List.append_nil] at hall
  obtain ⟨lines, hlines⟩ := Plan.outline?_of_owned (p := p) root.table_owned
  obtain rfl := hdraws.unique (Plan.draws_of_outline? hlines)
  refine ⟨p, _, Plan.ofTable_eq haccepted, rfl, hlines, hdraws, ?_, ?_, fun l hl => ?_⟩
  · rw [Plan.outlineText?, hlines, Option.map_some]
  · rw [JobTree.lines_ids, JobTree.table_size]
  · have hshows := Plan.shows_lines rfl hb root (fun x hx => hx) (Plan.isAbove_nil hb.root_parent)
      l hl
    obtain ⟨⟨j, hj, hworker, hvalues⟩, above, habove, hlevel⟩ := hshows
    have hid : j.id = l.id := root.table_owned l.id j hj
    refine ⟨j, above, hj, habove, ?_⟩
    rw [OutlineLine.text, hlevel, hworker, hvalues, hid]

/-- The batch of two branches, as it is listed. -/
theorem notifyTwice_outline : ∃ lines, notifyPlan.outline? = some lines ∧
    lines.map OutlineLine.id = [1, 2, 3, 4, 5, 6, 7] ∧
    notifyPlan.outlineText? = some (String.join (lines.map OutlineLine.text)) ∧
    lines.map OutlineLine.level = [0, 1, 2, 2, 1, 2, 2] := by
  obtain ⟨p, lines, hp, -, hlines, -, htext, hids, -⟩ := compiled_outline notifyJobs_compiled
  obtain rfl : notifyPlan = p :=
    Except.ok.inj ((Plan.ofTable_eq notifyPlan.accepted).symm.trans hp)
  have hlevels : notifyPlan.outline?.map (·.map OutlineLine.level) =
      some [0, 1, 2, 2, 1, 2, 2] := by
    decide +kernel
  rw [hlines] at hlevels
  exact ⟨lines, hlines, hids, htext, Option.some.inj hlevels⟩

end Workflow
