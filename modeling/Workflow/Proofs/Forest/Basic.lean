import Workflow.Expand.Emit

/-!
Jobs before they get their ids. A forest of job trees says what runs below what and in which
order; numbering it depth first gives the jobs with all their links at once, while the compiler
adds the links behind the jobs.
-/

namespace Workflow

/-- What a job stands for: an invocation, a batch, or one branch of a batch. -/
inductive JobKind where
  | call (worker : String)
  | batch
  | branch
deriving DecidableEq

namespace JobKind

def worker : JobKind → String
  | call worker => worker
  | batch => batchName
  | branch => branchName

/-- The ids that a job lists as its branches, of those that stand directly under it. -/
def listed : JobKind → List JobId → Option (List JobId)
  | call _, heads => heads.head?.map ([·])
  | batch, heads => if heads.isEmpty then none else some heads
  | branch, _ => none

/-- Whether the jobs directly under a job follow one another. -/
def chains : JobKind → Bool
  | batch => false
  | _ => true

end JobKind

inductive JobTree where
  | node (kind : JobKind) (keys : List ArgKey) (values : List Value) (below : List JobTree)

abbrev Forest := List JobTree

mutual

def JobTree.size : JobTree → Nat
  | .node _ _ _ below => forestSize below + 1

def forestSize : Forest → Nat
  | [] => 0
  | t :: ts => t.size + forestSize ts

end

/-- The ids of the trees of a forest that is numbered from `id` on. -/
def headIds (id : JobId) : Forest → List JobId
  | [] => []
  | t :: ts => id :: headIds (id + t.size) ts

mutual

/-- The jobs of a tree whose own job has the id `id`, depth first. -/
def JobTree.number (parent next : Option JobId) (id : JobId) : JobTree → List Job
  | .node kind keys values below =>
    ⟨id, kind.worker, keys, values, parent, kind.listed (headIds (id + 1) below), next⟩ ::
      numberAll kind.chains (some id) (id + 1) below

/-- The jobs of the trees under `parent` one after another; if they are `chained`, each tree is
followed by the one behind it. -/
def numberAll (chained : Bool) (parent : Option JobId) (id : JobId) : Forest → List Job
  | [] => []
  | t :: ts =>
    t.number parent (if chained then (headIds (id + t.size) ts).head? else none) id ++
      numberAll chained parent (id + t.size) ts

end

def JobTree.table (t : JobTree) : Table := Table.ofJobs (t.number none none 1)

theorem JobTree.size_pos (t : JobTree) : 0 < t.size := by
  cases t with
  | node => simp [JobTree.size]

theorem forestSize_append (f g : Forest) : forestSize (f ++ g) = forestSize f + forestSize g := by
  induction f with
  | nil => simp [forestSize]
  | cons t f ih => simp [forestSize, ih, Nat.add_assoc]

theorem headIds_append (id : JobId) (f g : Forest) :
    headIds id (f ++ g) = headIds id f ++ headIds (id + forestSize f) g := by
  induction f generalizing id with
  | nil => simp [headIds, forestSize]
  | cons t f ih => simp [headIds, forestSize, ih, Nat.add_assoc]

theorem headIds_length (id : JobId) (f : Forest) : (headIds id f).length = f.length := by
  induction f generalizing id with
  | nil => rfl
  | cons t f ih => simp [headIds, ih]

theorem headIds_bounds {id k : JobId} {f : Forest} (h : k ∈ headIds id f) :
    id ≤ k ∧ k < id + forestSize f := by
  induction f generalizing id with
  | nil => simp [headIds] at h
  | cons t f ih =>
    have hpos := t.size_pos
    rcases List.mem_cons.mp h with rfl | h
    · simp only [forestSize]
      lia
    · have := ih h
      simp only [forestSize]
      lia

theorem headIds_pairwise (id : JobId) (f : Forest) : (headIds id f).Pairwise (· < ·) := by
  induction f generalizing id with
  | nil => exact List.Pairwise.nil
  | cons t f ih =>
    refine List.pairwise_cons.mpr ⟨fun k hk => ?_, ih _⟩
    have hb := headIds_bounds hk
    have hpos := t.size_pos
    lia

/-- Trees that do not follow one another can be numbered piece by piece. -/
theorem numberAll_append (parent : Option JobId) (id : JobId) (f g : Forest) :
    numberAll false parent id (f ++ g) =
      numberAll false parent id f ++ numberAll false parent (id + forestSize f) g := by
  induction f generalizing id with
  | nil => simp [numberAll, forestSize]
  | cons t f ih => simp [numberAll, forestSize, ih, Nat.add_assoc]

theorem numberAll_singleton (chained : Bool) (parent : Option JobId) (id : JobId) (t : JobTree) :
    numberAll chained parent id [t] = t.number parent none id := by
  cases chained <;> simp [numberAll, headIds]

mutual

theorem JobTree.number_ids (parent next : Option JobId) (id : JobId) :
    (t : JobTree) → (t.number parent next id).map Job.id = List.range' id t.size
  | .node kind keys values below => by
    simp [JobTree.number, JobTree.size, numberAll_ids _ _ _ below, List.range'_succ]

theorem numberAll_ids (chained : Bool) (parent : Option JobId) (id : JobId) :
    (f : Forest) → (numberAll chained parent id f).map Job.id = List.range' id (forestSize f)
  | [] => by simp [numberAll, forestSize]
  | t :: ts => by
    simp [numberAll, forestSize, JobTree.number_ids _ _ _ t, numberAll_ids _ _ _ ts,
      List.range'_append_1]

end

theorem numberAll_length (chained : Bool) (parent : Option JobId) (id : JobId) (f : Forest) :
    (numberAll chained parent id f).length = forestSize f := by
  have h := congrArg List.length (numberAll_ids chained parent id f)
  simpa using h

theorem JobTree.number_length (parent next : Option JobId) (id : JobId) (t : JobTree) :
    (t.number parent next id).length = t.size := by
  have h := congrArg List.length (t.number_ids parent next id)
  simpa using h

theorem JobTree.mem_number_bounds {parent next : Option JobId} {id : JobId} {t : JobTree} {j : Job}
    (h : j ∈ t.number parent next id) : id ≤ j.id ∧ j.id < id + t.size := by
  have hj : j.id ∈ List.range' id t.size := by
    rw [← t.number_ids parent next id]
    exact List.mem_map_of_mem h
  simpa using hj

theorem mem_numberAll_bounds {chained : Bool} {parent : Option JobId} {id : JobId} {f : Forest}
    {j : Job} (h : j ∈ numberAll chained parent id f) : id ≤ j.id ∧ j.id < id + forestSize f := by
  have hj : j.id ∈ List.range' id (forestSize f) := by
    rw [← numberAll_ids chained parent id f]
    exact List.mem_map_of_mem h
  simpa using hj

/-! ### Links added behind the jobs -/

theorem link_of_not_mem {id next : JobId} {jobs : List Job} (h : ∀ j ∈ jobs, j.id ≠ id) :
    link id next jobs = jobs := by
  simp only [link]
  refine (List.map_congr_left fun j hj => ?_).trans (List.map_id jobs)
  simp [h j hj]

theorem link_cons (id next : JobId) (j : Job) (jobs : List Job) :
    link id next (j :: jobs) =
      (if j.id = id then { j with next := some next } else j) :: link id next jobs := rfl

theorem link_append (id next : JobId) (xs ys : List Job) :
    link id next (xs ++ ys) = link id next xs ++ link id next ys := by
  simp [link]

/-- Linking the first job of a tree is numbering the tree with that link. -/
theorem link_number (parent : Option JobId) (id next : JobId) (t : JobTree) :
    link id next (t.number parent none id) = t.number parent (some next) id := by
  cases t with
  | node kind keys values below =>
    have hrest : link id next (numberAll kind.chains (some id) (id + 1) below) =
        numberAll kind.chains (some id) (id + 1) below := by
      apply link_of_not_mem
      intro j hj
      have hb := mem_numberAll_bounds hj
      lia
    rw [JobTree.number, JobTree.number, link_cons, hrest]
    simp

/-- Chaining heads leaves jobs alone that are none of them. -/
theorem chain_append {heads : List JobId} {xs : List Job} (ys : List Job)
    (h : ∀ j ∈ xs, j.id ∉ heads) : chain heads (xs ++ ys) = xs ++ chain heads ys := by
  induction heads generalizing ys with
  | nil => rfl
  | cons a heads ih =>
    cases heads with
    | nil => rfl
    | cons b rest =>
      have ha : link a b xs = xs :=
        link_of_not_mem fun j hj e => h j hj (by simp [e])
      rw [chain, chain, link_append, ha]
      exact ih _ fun j hj hm => h j hj (List.mem_cons_of_mem _ hm)

/-- Chaining the heads of a forest is numbering the forest as a chain. -/
theorem chain_numberAll (parent : Option JobId) (id : JobId) (f : Forest) :
    chain (headIds id f) (numberAll false parent id f) = numberAll true parent id f := by
  induction f generalizing id with
  | nil => rfl
  | cons t f ih =>
    cases f with
    | nil => simp [headIds, numberAll, chain]
    | cons u f =>
      have hrest : link id (id + t.size) (numberAll false parent (id + t.size) (u :: f)) =
          numberAll false parent (id + t.size) (u :: f) := by
        apply link_of_not_mem
        intro j hj
        have hb := mem_numberAll_bounds hj
        have hpos := t.size_pos
        lia
      have hfirst : ∀ j ∈ t.number parent (some (id + t.size)) id,
          j.id ∉ headIds (id + t.size) (u :: f) := by
        intro j hj hm
        have hb := JobTree.mem_number_bounds hj
        have hh := headIds_bounds hm
        lia
      calc chain (headIds id (t :: u :: f)) (numberAll false parent id (t :: u :: f))
          = chain (headIds (id + t.size) (u :: f)) (link id (id + t.size)
              (t.number parent none id ++ numberAll false parent (id + t.size) (u :: f))) := by
            simp [headIds, numberAll, chain]
        _ = chain (headIds (id + t.size) (u :: f)) (t.number parent (some (id + t.size)) id ++
              numberAll false parent (id + t.size) (u :: f)) := by
            rw [link_append, link_number, hrest]
        _ = t.number parent (some (id + t.size)) id ++
              numberAll true parent (id + t.size) (u :: f) := by
            rw [chain_append _ hfirst, ih]
        _ = numberAll true parent id (t :: u :: f) := by
            simp [numberAll, headIds]

/-- Two chains of trees become one when the last head of the first is linked to the first head of
the second. -/
theorem link_numberAll {parent : Option JobId} {id a b : JobId} {f g : Forest}
    (ha : (headIds id f).getLast? = some a)
    (hb : (headIds (id + forestSize f) g).head? = some b) :
    link a b (numberAll true parent id f ++ numberAll true parent (id + forestSize f) g) =
      numberAll true parent id (f ++ g) := by
  induction f generalizing id with
  | nil => cases ha
  | cons t f ih =>
    have hsize : id + t.size + forestSize f = id + forestSize (t :: f) := by
      rw [forestSize, Nat.add_assoc]
    have hbehind : ∀ j ∈ numberAll true parent (id + forestSize (t :: f)) g, id ≠ j.id := by
      intro j hj
      have hj := mem_numberAll_bounds hj
      have hpos := t.size_pos
      rw [forestSize] at hj
      lia
    cases f with
    | nil =>
      obtain rfl : id = a := by simpa [headIds] using ha
      rw [link_append, link_of_not_mem fun j hj => (hbehind j hj).symm, numberAll_singleton,
        link_number, List.singleton_append, numberAll, hsize.symm]
      have hb' : (headIds (id + t.size) g).head? = some b := by simpa [forestSize] using hb
      simp [forestSize, hb']
    | cons u f =>
      have hlast : (headIds (id + t.size) (u :: f)).getLast? = some a := by
        simpa [headIds] using ha
      have hbounds := headIds_bounds (List.mem_of_getLast? hlast)
      have hfirst : link a b (t.number parent (some (id + t.size)) id) =
          t.number parent (some (id + t.size)) id := by
        refine link_of_not_mem fun j hj => ?_
        have hj := JobTree.mem_number_bounds hj
        lia
      have hrest := ih hlast (by rwa [hsize])
      rw [hsize] at hrest
      calc link a b (numberAll true parent id (t :: u :: f) ++
              numberAll true parent (id + forestSize (t :: u :: f)) g)
          = t.number parent (some (id + t.size)) id ++
              link a b (numberAll true parent (id + t.size) (u :: f) ++
                numberAll true parent (id + forestSize (t :: u :: f)) g) := by
            rw [numberAll, List.append_assoc, link_append]
            simp [headIds, hfirst]
        _ = numberAll true parent id (t :: u :: f ++ g) := by
            rw [hrest]
            simp [numberAll, headIds]

end Workflow
