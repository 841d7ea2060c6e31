import Workflow.Review.Finding
import Workflow.Registry

/-!
Reviewing a definition. Reads are looked up in the names that are bound where they stand: the
parameters and the elements of the batches around them. A batch reads its lists outside its own
body.
-/

namespace Workflow

/-- A finding for each name of a list that is not bound. -/
def unboundNames (complaint : String → Complaint) (bound : List String) (span : Span)
    (names : List String) : List Finding :=
  (names.filter fun n => n ∉ bound).map fun n => ⟨complaint n, span⟩

mutual

/-- Reads of names that are not bound. -/
def undefinedReads (bound : List String) : Node → List Finding
  | .leaf _ args span => unboundNames .undefinedParameter bound span (args.filterMap Arg.read?)
  | .sequence steps _ => undefinedReadsOf bound steps
  | .batch bindings body span =>
    unboundNames .unboundList bound span (bindings.map Binding.list) ++
      undefinedReads (bindings.map Binding.element ++ bound) body
  | .call _ args none span =>
    unboundNames .undefinedParameter bound span (args.filterMap Arg.read?)
  | .call _ args (some nested) span =>
    unboundNames .undefinedParameter bound span (args.filterMap Arg.read?) ++
      undefinedReads bound nested

def undefinedReadsOf (bound : List String) : List Node → List Finding
  | [] => []
  | n :: ns => undefinedReads bound n ++ undefinedReadsOf bound ns

end

/-- An invocation of a name that means nothing. -/
def unknownCallee? (r : Registry) : Node → Option Finding
  | .leaf worker _ span => if r.hasWorker worker then none else some ⟨.unknownWorker worker, span⟩
  | .call name _ _ span =>
    if (r.resolve name).isNone then some ⟨.unknownCallee name, span⟩ else none
  | _ => none

/-- Every name that is read somewhere in a tree. -/
def Node.reads (n : Node) : List String := n.all.flatMap Node.readHere

/-- The elements of a batch that its body never reads. -/
def unusedElements : Node → List Finding
  | .batch bindings body span =>
    ((bindings.map Binding.element).filter fun e => e ∉ body.reads).map fun e =>
      ⟨.unusedElement e, span⟩
  | _ => []

def unusedParameters (d : Definition) : List Finding :=
  (d.parameters.filter fun p => p ∉ d.body.reads).map fun p => ⟨.unusedParameter p d.name, d.span⟩

/-- The findings of one rule; callees are only looked up where a registry is given. -/
def ReviewRule.findings (r : Option Registry) (d : Definition) : ReviewRule → List Finding
  | .undefinedParameter => undefinedReads d.parameters d.body
  | .unknownCallee =>
    match r with
    | none => []
    | some r => d.body.all.filterMap (unknownCallee? r)
  | .unusedParameter => unusedParameters d ++ d.body.all.flatMap unusedElements

/-- Every finding on a definition, rule by rule. -/
def Definition.review (r : Option Registry) (d : Definition) : List Finding :=
  ReviewRule.all.flatMap (ReviewRule.findings r d)

end Workflow
