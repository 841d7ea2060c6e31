import Workflow.Expand.Fault
import Workflow.Registry

/-!
Every name that a tree can reach must be known before anything is compiled. A tree is looked
through as a whole before the superworkers that it calls, and these are opened depth first, each
once.
-/

namespace Workflow

/-- The superworkers called by the nodes of a list, or the first unknown name. -/
def superworkersOf (r : Registry) : List Node → Except CompileError (List String)
  | [] => .ok []
  | .leaf worker _ _ :: rest =>
    if r.hasWorker worker then superworkersOf r rest else .error (.unknownWorker worker)
  | .call name _ _ _ :: rest =>
    match r.resolve name with
    | none => .error (.unknownWorker name)
    | some .worker => superworkersOf r rest
    | some (.superworker _) => (superworkersOf r rest).map (name :: ·)
  | _ :: rest => superworkersOf r rest

/-- Opens superworkers one after another, those that a body calls before those that follow. -/
def checkNames (r : Registry) (seen : List String) : (pending : List String) →
    Except CompileError Unit
  | [] => .ok ()
  | name :: rest =>
    if _hs : name ∈ seen then checkNames r seen rest
    else
      match _h : r.get? name with
      | none => checkNames r seen rest
      | some d =>
        match superworkersOf r d.body.all with
        | .error e => .error e
        | .ok called => checkNames r (name :: seen) (called ++ rest)
termination_by pending => (r.unseen seen, pending.length)
decreasing_by
  · exact Prod.Lex.right _ (Nat.lt_succ_self _)
  · exact Prod.Lex.right _ (Nat.lt_succ_self _)
  · exact Prod.Lex.left _ _ (Registry.unseen_cons_lt _h _hs)

def resolveNames (r : Registry) (n : Node) : Except CompileError Unit := do
  checkNames r [] (← superworkersOf r n.all)

end Workflow
