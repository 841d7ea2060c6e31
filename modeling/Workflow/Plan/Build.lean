import Workflow.Plan.Basic
import Workflow.Expand.Emit
import Workflow.Surface.Reading

/-!
From a text to a plan: the text is read, compiled and checked, and each stage has its own errors.
-/

namespace Workflow

/-- Why a text gives no plan. -/
inductive BuildError where
  | unread (e : ParseError)
  | uncompiled (e : CompileError)
  | unsound (e : PlanError)

namespace Plan

def ofSource (r : Registry) (args : Scope) (source : String) : Except BuildError Plan := do
  let n ← (parseBody source).mapError .unread
  let t ← (compile r args n).mapError .uncompiled
  (ofTable t).mapError .unsound

end Plan

end Workflow
