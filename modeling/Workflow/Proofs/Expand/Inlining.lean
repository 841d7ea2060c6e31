import Workflow.Proofs.Expand.Passing
import Workflow.Proofs.Forest.Elsewhere

/-!
A superworker and its body written out. Where the superworker compiles by name, its body compiles
with the same values bound, to the jobs that stand under the one call. The converse fails where the
body calls the superworker again: only the call by name has it under way.
-/

namespace Workflow

/-- A table without its first job, for one that has a single job under it: every id one lower, and
the job that comes first then under none. -/
def Table.withoutRoot (t : Table) : Table :=
  Table.ofJobs ((t.jobs.tail.map (Job.lowered 1)).modifyHead fun j => { j with parent := none })

/-- Two tables with the same ids and jobs, but for what the first job does. -/
structure Table.SameBelow (t u : Table) : Prop extends t.SameLater u where
  first : ∃ j k, SortedMap.get? t 1 = some j ∧ SortedMap.get? u 1 = some k ∧
    k.branches = j.branches ∧ k.parent = j.parent ∧ k.next = j.next

namespace JobTree

theorem table_jobs_eq_number (root : JobTree) : root.table.jobs = root.number none none 1 := by
  rw [table_jobs, number_eq_map_places]
  rfl

theorem number_under (parent next : Option JobId) (id : JobId) (t : JobTree) :
    (t.number parent next id).modifyHead (fun j => { j with parent := none }) =
      t.number none next id := by
  cases t with
  | node kind keys values below => rfl

/-- Under a call there is nothing but the one tree, numbered from 2 on. -/
theorem table_withoutRoot {name : String} {keys : List ArgKey} {values : List Value} (t : JobTree) :
    (node (.call name) keys values [t]).table.withoutRoot = t.table := by
  have hbelow : (node (.call name) keys values [t]).table.jobs.tail = t.number (some 1) none 2 := by
    rw [table_jobs_eq_number, number, List.tail_cons, numberAll_singleton]
  rw [Table.withoutRoot, hbelow, number_lowered 1 (some 1) none 1 t, number_under, table]
  rfl

end JobTree

section Inlining

variable {r : Registry} {name : String} {d : Definition} {s : Scope} {t : Table}

/-- What the call of a superworker can reach includes what its body can reach. -/
theorem known_body {args : List Arg} {nested : Option Node} {span : Span}
    (hd : r.get? name = some d) (h : (Node.call name args nested span).Known r) :
    d.body.Known r := by
  intro m hm
  apply h
  exact Reaches.trans (.inside (Node.mem_all_self _)) hd hm

/-- Where a superworker compiles by name, its body compiles to the jobs under the call. -/
theorem compile_body_of_definition (hd : r.get? name = some d) (hs : s.Binds d.parameters)
    (h : compileDefinition r s name = .ok t) :
    ∃ f, Expands r [] s d.body f ∧ t = (passedTree name d s f).table ∧
      compile r s d.body = .ok (rooted s f).table := by
  rw [compileDefinition_eq_expand hd hs, Except.bind_eq_ok_iff] at h
  obtain ⟨u, hnames, h⟩ := h
  obtain ⟨f, hf, rfl⟩ := Except.map_eq_ok_iff.mp h
  have hbody : Expands r [] s d.body f :=
    (expand_eq_ok_iff.mp hf).mono (List.nil_subset _) hs.only_within
  have hknown : d.body.Known r := known_body hd (resolveNames_eq_ok_iff.mp hnames)
  exact ⟨f, hbody, rfl, compile_eq_ok_iff.mpr ⟨hknown, f, hbody, rfl⟩⟩

/-- Inlining: where a superworker compiles by name, its body compiles with the same values. If the
body has several top-level steps, the tables differ in what the first job does and in nothing else;
if it has one, its table is that of the superworker without the call. -/
theorem compileDefinition_inlines (hd : r.get? name = some d) (hs : s.Binds d.parameters)
    (h : compileDefinition r s name = .ok t) :
    ∃ u, compile r s d.body = .ok u ∧
      ((1 < headCount d.body ∧ t.SameBelow u) ∨ (headCount d.body = 1 ∧ u = t.withoutRoot)) := by
  obtain ⟨f, hf, rfl, hu⟩ := compile_body_of_definition hd hs h
  rw [← expands_length hf]
  refine ⟨_, hu, ?_⟩
  cases f with
  | nil => exact absurd rfl (expands_ne_nil hf)
  | cons root rest =>
    cases rest with
    | nil =>
      right
      rw [rooted_singleton, passedTree, JobTree.table_withoutRoot]
      exact ⟨rfl, rfl⟩
    | cons second rest =>
      left
      have hmany : 1 < (root :: second :: rest).length := by simp
      rw [rooted_of_one_lt hmany]
      exact ⟨hmany, JobTree.table_sameLater rfl, _, _, JobTree.table_first, JobTree.table_first,
        rfl, rfl, rfl⟩

end Inlining

/-- A superworker of two steps. -/
def escalate : Definition where
  name := "Escalate"
  parameters := ["team"]
  body := .sequence [.leaf "Send" [.param "team"] Span.zero,
    .leaf "Log" [.keyed "who" "team"] Span.zero] Span.zero
  version := none
  span := Span.zero

def escalation : Registry where
  definitions := SortedMap.ofList [("Escalate", escalate)]
  workers := SortedMap.ofList [("Log", ()), ("Send", ())]

/-- The body gets a structural root of its own in place of the call. -/
theorem escalate_inlines :
    ∃ t u, compileDefinition escalation (SortedMap.ofList [("team", .string "a")]) "Escalate" =
        .ok t ∧
      compile escalation (SortedMap.ofList [("team", .string "a")]) escalate.body = .ok u ∧
      t.SameBelow u := by
  have hd : escalation.get? "Escalate" = some escalate := rfl
  have hs : Scope.Binds (SortedMap.ofList [("team", .string "a")]) escalate.parameters := by
    unfold Scope.Binds
    decide
  have hok : (compileDefinition escalation (SortedMap.ofList [("team", .string "a")])
      "Escalate").isOk = true := by cbv
  cases ht : compileDefinition escalation (SortedMap.ofList [("team", .string "a")]) "Escalate" with
  | error e =>
    rw [ht] at hok
    cases hok
  | ok t =>
    obtain ⟨u, hu, ⟨-, hsame⟩ | ⟨hone, -⟩⟩ := compileDefinition_inlines hd hs ht
    · exact ⟨t, u, rfl, hu, hsame⟩
    · exact absurd hone (by decide)

/-- A superworker that calls itself for each of its rounds. -/
def drill : Definition where
  name := "Drill"
  parameters := ["rounds"]
  body := .batch [⟨"rounds", "round"⟩] (.call "Drill" [.keyed "rounds" "round"] none Span.zero)
    Span.zero
  version := none
  span := Span.zero

def drills : Registry where
  definitions := SortedMap.ofList [("Drill", drill)]
  workers := SortedMap.empty

/-- A round in which there is none. -/
def oneRound : Scope := SortedMap.ofList [("rounds", .array [.array []])]

-- Where the body is written out, the superworker is not under way yet as it is called.
example : (compile drills oneRound drill.body).isOk = true ∧
    compileDefinition drills oneRound "Drill" = .error (.recursive ["Drill", "Drill"]) := by
  constructor
  · cbv
  · cbv

end Workflow
