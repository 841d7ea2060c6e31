import Workflow.Source.Span

/-!
What a review of a definition can find, by which rule, and how grave it is.
-/

namespace Workflow

inductive ReviewRule where
  | undefinedParameter
  | unknownCallee
  | unusedParameter
deriving DecidableEq

namespace ReviewRule

def id : ReviewRule → String
  | undefinedParameter => "undefined-parameter"
  | unknownCallee => "unknown-callee"
  | unusedParameter => "unused-parameter"

def description : ReviewRule → String
  | undefinedParameter => "Arguments may only read formal parameters and enclosing batch elements"
  | unknownCallee => "Invoked workers and superworkers must be registered"
  | unusedParameter => "Parameters and batch elements should be read somewhere"

/-- Every rule, in the order in which a review applies them. -/
def all : List ReviewRule := [undefinedParameter, unknownCallee, unusedParameter]

/-- A definition with an error cannot be compiled; a warning is only a likely mistake. -/
def isError : ReviewRule → Bool
  | undefinedParameter => true
  | unknownCallee => true
  | unusedParameter => false

end ReviewRule

inductive Complaint where
  | undefinedParameter (name : String)
  | unboundList (name : String)
  | unknownWorker (name : String)
  | unknownCallee (name : String)
  | unusedParameter (name owner : String)
  | unusedElement (name : String)
deriving DecidableEq

namespace Complaint

def rule : Complaint → ReviewRule
  | undefinedParameter _ => .undefinedParameter
  | unboundList _ => .undefinedParameter
  | unknownWorker _ => .unknownCallee
  | unknownCallee _ => .unknownCallee
  | unusedParameter _ _ => .unusedParameter
  | unusedElement _ => .unusedParameter

def message : Complaint → String
  | undefinedParameter name => s!"Undefined parameter ':{name}'"
  | unboundList name => s!"Batch list '{name}' is not bound"
  | unknownWorker name => s!"Unknown worker '{name}'"
  | unknownCallee name => s!"Unknown worker or superworker '{name}'"
  | unusedParameter name owner => s!"Parameter ':{name}' of '{owner}' is never used"
  | unusedElement name => s!"Batch element ':{name}' is never used"

end Complaint

structure Finding where
  complaint : Complaint
  span : Span
deriving DecidableEq

namespace Finding

def isError (f : Finding) : Bool := f.complaint.rule.isError

def severity (f : Finding) : String := if f.isError then "error" else "warning"

/-- The finding on one line; lines and columns count from 1. -/
def text (f : Finding) : String :=
  s!"{f.severity} at line {f.span.startLine + 1}, col {f.span.startCol + 1}: " ++
    s!"{f.complaint.message} [{f.complaint.rule.id}]"

end Finding

end Workflow
