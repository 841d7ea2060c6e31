import Workflow.Data.SortedMap
import Workflow.Node.Basic

/-!
The names that a workflow may invoke: plain workers and defined superworkers. No name is both,
and the names of structural jobs are neither.
-/

namespace Workflow

def batchName : String := "batch"

def branchName : String := "batch_child"

def superworkerName : String := "superworker"

/-- The names under which structural jobs appear. -/
def isStructuralName (name : String) : Bool :=
  name == batchName || name == branchName || name == superworkerName

inductive RegistryError where
  | duplicateDefinition (name : String)
  | nameConflict (name : String)
  | reservedName (name : String)
deriving DecidableEq

def RegistryError.message : RegistryError → String
  | duplicateDefinition name => s!"superworker '{name}' is already registered"
  | nameConflict name => s!"'{name}' is registered both as a worker and as a superworker"
  | reservedName name => s!"'{name}' is reserved for structural records"

structure Registry where
  definitions : SortedMap String Definition
  workers : SortedMap String Unit

/-- What a name invokes. -/
inductive Callee where
  | worker
  | superworker (d : Definition)

namespace Registry

def empty : Registry := ⟨SortedMap.empty, SortedMap.empty⟩

instance : Inhabited Registry := ⟨empty⟩

def get? (r : Registry) (name : String) : Option Definition := r.definitions.get? name

def hasWorker (r : Registry) (name : String) : Bool := r.workers.contains name

def resolve (r : Registry) (name : String) : Option Callee :=
  match r.get? name with
  | some d => some (.superworker d)
  | none => if r.hasWorker name then some .worker else none

/-- Registers a worker; registering it again changes nothing. -/
def addWorker (r : Registry) (name : String) : Except RegistryError Registry :=
  if isStructuralName name then .error (.reservedName name)
  else if r.definitions.contains name then .error (.nameConflict name)
  else .ok { r with workers := r.workers.insert name () }

def addDefinition (r : Registry) (d : Definition) : Except RegistryError Registry :=
  if isStructuralName d.name then .error (.reservedName d.name)
  else if r.hasWorker d.name then .error (.nameConflict d.name)
  else if r.definitions.contains d.name then .error (.duplicateDefinition d.name)
  else .ok { r with definitions := r.definitions.insert d.name d }

def definitionNames (r : Registry) : List String := r.definitions.keys

def workerNames (r : Registry) : List String := r.workers.keys

/-! ### Names that are still to be opened -/

/-- How many superworkers are not among the names `seen`. -/
def unseen (r : Registry) (seen : List String) : Nat :=
  (r.definitionNames.filter fun n => n ∉ seen).length

theorem mem_keys_of_get? {κ α : Type} [DecidableEq κ] {k : κ} {a : α} {l : List (κ × α)}
    (h : Entries.get? k l = some a) : k ∈ l.map Prod.fst := by
  induction l with
  | nil => simp [Entries.get?] at h
  | cons e l ih =>
    obtain ⟨k', a'⟩ := e
    simp only [Entries.get?] at h
    split at h
    · rename_i hk
      simp [hk]
    · simp [ih h]

theorem mem_definitionNames {r : Registry} {name : String} {d : Definition}
    (h : r.get? name = some d) : name ∈ r.definitionNames := mem_keys_of_get? h

private theorem filter_length_lt {l : List String} {p q : String → Bool} {n : String}
    (hpq : ∀ m, p m = true → q m = true) (hn : n ∈ l) (hp : p n = false) (hq : q n = true) :
    (l.filter p).length < (l.filter q).length := by
  induction l with
  | nil => cases hn
  | cons a l ih =>
    have hle : (l.filter p).length ≤ (l.filter q).length := by
      simpa [← List.countP_eq_length_filter] using
        List.countP_mono_left fun m _ => hpq m
    rcases List.mem_cons.mp hn with rfl | hn
    · simp only [List.filter_cons, hp, hq, if_true, Bool.false_eq_true, if_false,
        List.length_cons]
      omega
    · have := ih hn
      by_cases ha : p a = true
      · simp only [List.filter_cons, ha, hpq a ha, if_true, List.length_cons]
        omega
      · cases hqa : q a <;> simp only [List.filter_cons, ha, hqa, if_true,
          Bool.false_eq_true, if_false, List.length_cons] <;> omega

/-- Opening a name that was not seen leaves fewer to open. -/
theorem unseen_cons_lt {r : Registry} {seen : List String} {name : String} {d : Definition}
    (h : r.get? name = some d) (hs : name ∉ seen) : r.unseen (name :: seen) < r.unseen seen := by
  refine filter_length_lt (n := name) ?_ (mem_definitionNames h) ?_ ?_
  · intro m
    simp only [List.mem_cons, not_or, decide_eq_true_eq]
    exact And.right
  · simp
  · simpa using hs

end Registry

end Workflow
