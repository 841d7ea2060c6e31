import Workflow.Library.FileTree
import Workflow.Reason

/-!
Finding definition files. A path that is no directory stands for itself; a directory stands for
every definition file under it. The files come in path order, each once.
-/

namespace Workflow

/-- A file of definitions and its text. -/
structure SourceFile where
  path : String
  source : String
deriving DecidableEq

structure Missing where
  path : String
deriving DecidableEq

def Missing.account (m : Missing) : Account :=
  [.text s!"Failed to read definition file {m.path}", .file]

namespace FileTree

/-- Definition files have a name in front of the ending `.sw`. -/
def isDefinitionFile (name : String) : Bool := name.endsWith ".sw" && name != ".sw"

/-- The paths that a given path stands for. -/
def named (f : FileTree) (path : String) : List String :=
  match f.directory? path with
  | none => [path]
  | some directory =>
    let found := (f.allUnder directory).filter fun t => t.getLast?.any isDefinitionFile
    found.map fun t => Path.below path ("/".intercalate t)

/-- Drops each path with the same parts as the one before it. -/
def distinct : List String → List String
  | p :: q :: rest =>
    if Path.parts p = Path.parts q then distinct (p :: rest) else p :: distinct (q :: rest)
  | ps => ps
termination_by ps => ps.length

def readAll (f : FileTree) : List String → Except Missing (List SourceFile)
  | [] => .ok []
  | path :: rest =>
    match f.read? path with
    | none => .error ⟨path⟩
    | some source => do
      let files ← f.readAll rest
      pure (⟨path, source⟩ :: files)

def discover (f : FileTree) (paths : List String) : Except Missing (List SourceFile) :=
  let found := paths.flatMap f.named
  f.readAll (distinct (found.mergeSort fun p q => Path.notAfter (Path.parts p) (Path.parts q)))

end FileTree

end Workflow
