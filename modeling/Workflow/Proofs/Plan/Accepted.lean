import Workflow.Plan.Build
import Workflow.Proofs.Forest.Shape

/-!
Compiling gives plans: the check of a table never refuses what the compiler made.
-/

namespace Workflow

theorem Plan.ofTable_eq {t : Table} {root : JobId} (h : checkTable t = .ok root) :
    Plan.ofTable t = .ok ⟨t, root, h⟩ := by
  rw [Plan.ofTable]
  split
  · rename_i root' h'
    cases h'.symm.trans h
    rfl
  · rename_i e h'
    cases h'.symm.trans h

theorem checkTable_compiled {r : Registry} {args : Scope} {n : Node} {t : Table}
    (h : compile r args n = .ok t) : checkTable t = .ok 1 := by
  obtain ⟨root, rfl, hp⟩ := tree_of_compile h
  exact checkTable_of_sound root.table_owned (JobTree.table_sound hp)

/-- A text that is read and compiled is a plan. -/
theorem ofSource_ne_unsound (r : Registry) (args : Scope) (source : String) (e : PlanError) :
    Plan.ofSource r args source ≠ .error (.unsound e) := by
  intro h
  rw [Plan.ofSource, Except.bind_eq_error_iff] at h
  rcases h with h | ⟨n, -, h⟩
  · obtain ⟨_, _, h⟩ := Except.mapError_eq_error_iff.mp h
    cases h
  · rw [Except.bind_eq_error_iff] at h
    rcases h with h | ⟨t, ht, h⟩
    · obtain ⟨_, _, h⟩ := Except.mapError_eq_error_iff.mp h
      cases h
    · rw [Plan.ofTable_eq (checkTable_compiled (Except.mapError_eq_ok_iff.mp ht))] at h
      cases h

/-- Every compiled table can be run from its first job on, and no text that compiles is turned
down by the check. -/
theorem compiled_accepted (r : Registry) (args : Scope) :
    (∀ n t, compile r args n = .ok t → t.Owned ∧ t.Sound 1 ∧ checkTable t = .ok 1 ∧
      ∃ p, Plan.ofTable t = .ok p ∧ p.table = t ∧ p.root = 1) ∧
    ∀ source e, Plan.ofSource r args source ≠ .error (.unsound e) := by
  refine ⟨fun n t h => ?_, ofSource_ne_unsound r args⟩
  obtain ⟨root, rfl, hp⟩ := tree_of_compile h
  have hcheck := checkTable_compiled h
  exact ⟨root.table_owned, JobTree.table_sound hp, hcheck, _, Plan.ofTable_eq hcheck, rfl, rfl⟩

/-- A worker that a batch calls twice for each of its ids. -/
def notifier : Registry := { Registry.empty with workers := SortedMap.empty.insert "Notify" () }

def notifyTwice : Node :=
  .batch [⟨"ids", "id"⟩]
    (.sequence [.leaf "Notify" [.param "id"] Span.zero, .leaf "Notify" [.param "id"] Span.zero]
      Span.zero)
    Span.zero

def twoIds : Scope := SortedMap.ofList [("ids", .array [.nat 1, .nat 2])]

/-- The jobs of the batch for both ids: each branch notifies, and then notifies again. -/
def notifyJobs : List Job :=
  let branch (id : JobId) (v : Nat) : Job :=
    ⟨id, branchName, [.name "id"], [.nat v], some 1, none, none⟩
  let notify (id parent : JobId) (v : Nat) (next : Option JobId) : Job :=
    ⟨id, "Notify", [.name "id"], [.nat v], some parent, none, next⟩
  let batch : Job :=
    ⟨1, batchName, [.bindings (SortedMap.ofList [("ids", "id")])],
      [.object [("ids", .string "id")]], none, some [2, 5], none⟩
  [batch, branch 2 1, notify 3 2 1 (some 4), notify 4 2 1 none,
    branch 5 2, notify 6 5 2 (some 7), notify 7 5 2 none]

theorem notifyJobs_compiled :
    compile notifier twoIds notifyTwice = .ok (Table.ofJobs notifyJobs) := by
  have hworker : notifier.hasWorker "Notify" = true := by decide
  have hids : SortedMap.get? twoIds "ids" = some (.array [.nat 1, .nat 2]) := by decide
  have hid : ∀ v, SortedMap.get? (twoIds.bind ["id"] [v]) "id" = some v := by
    intro v
    simp [Scope.bind, SortedMap.insertAll, SortedMap.get?_insert]
  have hnames : resolveNames notifier notifyTwice = .ok () := by
    simp [resolveNames, superworkersOf, notifyTwice, Node.all, Node.allOf, checkNames, hworker,
      bind, Except.bind]
  have hexpand : (expand notifier [] twoIds notifyTwice).map (fun f => (rooted twoIds f).table) =
      .ok (Table.ofJobs notifyJobs) := by
    simp [notifyTwice, expand, expandAll, expandRows, batchLists, checkLengths, rows, evaluate,
      Scope.lookup, Arg.param, hids, hid, hworker, bind, Except.bind, pure, Except.pure, Except.map]
    rfl
  rw [compile_eq_expand, hnames]
  exact hexpand

theorem notifyTwice_compiles : ∃ t, compile notifier twoIds notifyTwice = .ok t :=
  ⟨_, notifyJobs_compiled⟩

theorem notifyTwice_accepted :
    ∃ t, compile notifier twoIds notifyTwice = .ok t ∧ t.Sound 1 ∧ checkTable t = .ok 1 := by
  obtain ⟨t, ht⟩ := notifyTwice_compiles
  obtain ⟨-, hsound, hcheck, -⟩ := (compiled_accepted notifier twoIds).1 notifyTwice t ht
  exact ⟨t, ht, hsound, hcheck⟩

def notifyPlan : Plan where
  table := Table.ofJobs notifyJobs
  root := 1
  accepted := checkTable_compiled notifyJobs_compiled

end Workflow
