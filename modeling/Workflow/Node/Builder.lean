import Workflow.Node.Basic

/-!
Building trees by hand. A builder records what it is told; whether the tree makes sense is for
the compiler to say.
-/

namespace Workflow.Node.Builder

def call (name : String) (args : List Arg) (nested : Option Node) : Node :=
  .call name args nested Span.zero

def leaf (worker : String) (args : List Arg) : Node := .leaf worker args Span.zero

def sequence (steps : List Node) : Node := .sequence steps Span.zero

def batch (bindings : List Binding) (body : Node) : Node := .batch bindings body Span.zero

/-- A call that passes each parameter on under its own name. -/
def passing (name : String) (parameters : List String) : Node :=
  call name (parameters.map Arg.param) none

end Workflow.Node.Builder
