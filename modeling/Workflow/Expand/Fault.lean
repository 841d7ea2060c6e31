/-!
Why a workflow cannot be compiled.
-/

namespace Workflow

/-- A part that no tree should have. -/
inductive Misshape where
  | noSteps
  | noBindings
deriving DecidableEq

inductive CompileError where
  | unknownWorker (name : String)
  | lengthMismatch (list : String) (expected found : Nat)
  | unbound (name : String)
  | notAList (name kind : String)
  | arityMismatch (name : String) (expected found : Nat)
  /-- The superworkers under way, outermost first, and the one that would be opened again. -/
  | recursive (chain : List String)
  | misshapen (part : Misshape)
deriving DecidableEq

def CompileError.message : CompileError → String
  | unknownWorker name => s!"Unknown worker or superworker '{name}'"
  | lengthMismatch list expected found =>
    s!"Batch list '{list}' has {found} elements, expected {expected}"
  | unbound name => s!"Parameter ':{name}' is not bound"
  | notAList name kind => s!"Batch list '{name}' is not a list (found {kind})"
  | arityMismatch name expected found =>
    s!"Superworker '{name}' takes {expected} arguments, {found} given"
  | recursive chain => "Superworker expands into itself: " ++ " -> ".intercalate chain
  | misshapen .noSteps => "Malformed definition: sequence has no steps"
  | misshapen .noBindings => "Malformed definition: batch has no list bindings"

end Workflow
