import Workflow.Plan.Basic
import Workflow.Json.Printer

/-!
A plan as an outline: a line to a job, the branches of a job indented under it, and what follows
it after them at its own level.
-/

namespace Workflow

structure OutlineLine where
  level : Nat
  id : JobId
  worker : String
  values : List Value
deriving DecidableEq

namespace OutlineLine

def text (l : OutlineLine) : String :=
  String.ofList (List.replicate (2 * l.level) ' ') ++
    s!"{l.id} {l.worker}(" ++ ", ".intercalate (l.values.map Value.compact) ++ ")\n"

end OutlineLine

namespace Plan

/-- The lines from a job on; `none` if more than `bound` jobs lead to one another. -/
def outlineFrom (p : Plan) : (bound : Nat) → (level : Nat) → JobId → Option (List OutlineLine)
  | 0, _, _ => none
  | bound + 1, level, id =>
    match p.get? id with
    | none => some []
    | some j => do
      let below ← (p.branches id).mapM (p.outlineFrom bound (level + 1))
      let after ←
        match j.next with
        | none => some []
        | some next => p.outlineFrom bound level next
      some (⟨level, id, j.worker, j.values⟩ :: below.flatten ++ after)

/-- The outline of a plan, `none` if it has no end. A way through the plan that comes to an end
meets no id twice, so it is no longer than the plan has jobs, and one step more. -/
def outline? (p : Plan) : Option (List OutlineLine) := p.outlineFrom (p.size + 1) 0 p.root

def outlineText? (p : Plan) : Option String :=
  p.outline?.map fun lines => String.join (lines.map OutlineLine.text)

end Plan

end Workflow
