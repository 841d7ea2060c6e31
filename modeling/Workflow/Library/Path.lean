/-!
File paths by their parts. Doubled and closing slashes and inner dots make no part, so paths that
differ only in those have the same parts.
-/

namespace Workflow.Path

inductive Part where
  | root
  | here
  | up
  | name (s : String)
deriving DecidableEq

/-- The stretches between slashes. -/
def segments (path : String) : List String := path.splitOn "/"

def Part.ofSegment? (segment : String) : Option Part :=
  if segment = "" ∨ segment = "." then none
  else if segment = ".." then some .up
  else some (.name segment)

def parts (path : String) : List Part :=
  let inner := (segments path).filterMap Part.ofSegment?
  match segments path with
  | "" :: _ :: _ => .root :: inner
  | "." :: _ => .here :: inner
  | _ => inner

def Part.rank : Part → Nat
  | root => 0
  | here => 1
  | up => 2
  | name _ => 3

def Part.before (p q : Part) : Bool :=
  match p, q with
  | name s, name t => s < t
  | p, q => p.rank < q.rank

/-- Part by part, a path before those that go on from it. -/
def notAfter : List Part → List Part → Bool
  | [], _ => true
  | _ :: _, [] => false
  | p :: ps, q :: qs => if p = q then notAfter ps qs else p.before q

/-- The path of an entry of a directory. -/
def below (directory entry : String) : String :=
  if directory.endsWith "/" then directory ++ entry else directory ++ "/" ++ entry

end Workflow.Path
