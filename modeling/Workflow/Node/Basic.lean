import Workflow.Json.Value
import Workflow.Source.Span

/-!
The body of a workflow as a tree. A tree names parameters and never holds their values, so one
tree can be compiled against any arguments.
-/

namespace Workflow

/-- Where the value of an argument comes from. -/
inductive ArgSource where
  | param (name : String)
  | literal (value : Value)
deriving DecidableEq

structure Arg where
  key : String
  source : ArgSource
deriving DecidableEq

namespace Arg

/-- An argument under the name of the parameter that it reads. -/
def param (name : String) : Arg := ⟨name, .param name⟩

def keyed (key name : String) : Arg := ⟨key, .param name⟩

def literal (key : String) (value : Value) : Arg := ⟨key, .literal value⟩

/-- The parameter that an argument reads. -/
def read? (a : Arg) : Option String :=
  match a.source with
  | .param name => some name
  | .literal _ => none

end Arg

/-- Each element of `list` in turn is bound to `element`. -/
structure Binding where
  list : String
  element : String
deriving DecidableEq

/-- A `leaf` is the invocation of a worker and nothing else; a `call` is that of a worker or a
superworker, with an optional block that runs below it. -/
inductive Node where
  | leaf (worker : String) (args : List Arg) (span : Span)
  | sequence (steps : List Node) (span : Span)
  | batch (bindings : List Binding) (body : Node) (span : Span)
  | call (name : String) (args : List Arg) (nested : Option Node) (span : Span)

namespace Node

instance : Inhabited Node := ⟨sequence [] Span.zero⟩

def span : Node → Span
  | leaf _ _ s => s
  | sequence _ s => s
  | batch _ _ s => s
  | call _ _ _ s => s

mutual

/-- The node and every node below it, parents first. -/
def all : Node → List Node
  | leaf w args s => [leaf w args s]
  | sequence steps s => sequence steps s :: allOf steps
  | batch bs body s => batch bs body s :: all body
  | call n args none s => [call n args none s]
  | call n args (some body) s => call n args (some body) s :: all body

def allOf : List Node → List Node
  | [] => []
  | n :: ns => all n ++ allOf ns

end

/-- The name that a node itself invokes. -/
def invoked? : Node → Option String
  | leaf worker _ _ => some worker
  | call name _ _ _ => some name
  | _ => none

/-- Every name invoked in the tree, in visit order. -/
def invoked (n : Node) : List String := n.all.filterMap invoked?

/-- The parameters that a node itself reads, its arguments or its batch lists. -/
def readHere : Node → List String
  | leaf _ args _ => args.filterMap Arg.read?
  | call _ args _ _ => args.filterMap Arg.read?
  | batch bindings _ _ => bindings.map Binding.list
  | sequence _ _ => []

theorem mem_all_self (n : Node) : n ∈ n.all := by
  cases n with
  | leaf => simp [all]
  | sequence => simp [all]
  | batch => simp [all]
  | call _ _ nested _ => cases nested <;> simp [all]

theorem mem_allOf {n m : Node} {ns : List Node} (hn : n ∈ ns) (hm : m ∈ n.all) :
    m ∈ allOf ns := by
  induction ns with
  | nil => cases hn
  | cons a ns ih =>
    rcases List.mem_cons.mp hn with rfl | hn
    · exact List.mem_append_left _ hm
    · exact List.mem_append_right _ (ih hn)

end Node

/-- A named superworker. -/
structure Definition where
  name : String
  parameters : List String
  body : Node
  /-- The digest of the file that it was loaded from. -/
  version : Option String
  span : Span

end Workflow
