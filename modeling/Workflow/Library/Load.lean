import Workflow.Library.Discover
import Workflow.Review.Rules
import Workflow.Digest.Sha256

/-!
Loading definition files into a registry: first all workers, then all definitions, and then a
review of every definition with the finished registry. A definition carries the digest of the
file that it comes from.
-/

namespace Workflow

inductive LoadError where
  | worker (name : String) (cause : RegistryError)
  | unparsed (path : String) (cause : ParseError)
  | fileWorker (path name : String) (cause : RegistryError)
  | definition (path : String) (cause : RegistryError)
deriving DecidableEq

def LoadError.account : LoadError → Account
  | worker name cause => .text s!"Failed to register worker '{name}'" :: cause.account
  | unparsed path cause => .text s!"Failed to parse {path}" :: cause.account
  | fileWorker path name cause =>
    .text s!"Failed to register worker '{name}' from {path}" :: cause.account
  | definition path cause => .text s!"Failed to register definitions from {path}" :: cause.account

/-- A finding and where the definition comes from. -/
structure Diagnostic where
  path : String
  definition : String
  finding : Finding
deriving DecidableEq

def Diagnostic.text (d : Diagnostic) : String := s!"{d.path} ({d.definition}): {d.finding.text}"

def Diagnostic.isError (d : Diagnostic) : Bool := d.finding.isError

structure Library where
  registry : Registry
  diagnostics : List Diagnostic

def Library.errors (l : Library) : List Diagnostic := l.diagnostics.filter Diagnostic.isError

namespace Registry

def addWorkers (r : Registry) : List String → Except (String × RegistryError) Registry
  | [] => .ok r
  | name :: rest =>
    match r.addWorker name with
    | .error e => .error (name, e)
    | .ok r => r.addWorkers rest

def addDefinitions (r : Registry) : List Definition → Except RegistryError Registry
  | [] => .ok r
  | d :: rest => do (← r.addDefinition d).addDefinitions rest

end Registry

/-- What a file defines, with the digest of the file. -/
structure ParsedFile where
  path : String
  definitions : List Definition

namespace Library

def stamp (f : SourceFile) (d : DefinitionFile) : ParsedFile :=
  let version := Sha256.ofText f.source
  ⟨f.path, d.definitions.map fun d => { d with version := some version }⟩

/-- Parses files one after another and registers their workers. -/
def parseFiles (r : Registry) : List SourceFile → Except LoadError (Registry × List ParsedFile)
  | [] => .ok (r, [])
  | f :: rest => do
    let d ← (parseFile f.source).mapError (.unparsed f.path)
    let r ← (r.addWorkers d.workers).mapError fun (name, e) => .fileWorker f.path name e
    let (r, files) ← parseFiles r rest
    pure (r, stamp f d :: files)

def defineFiles (r : Registry) : List ParsedFile → Except LoadError Registry
  | [] => .ok r
  | f :: rest => do
    let r ← (r.addDefinitions f.definitions).mapError (.definition f.path)
    defineFiles r rest

def diagnose (r : Registry) (f : ParsedFile) : List Diagnostic :=
  f.definitions.flatMap fun d => (d.review (some r)).map fun finding => ⟨f.path, d.name, finding⟩

def load (files : List SourceFile) (workers : List String) : Except LoadError Library := do
  let r ← (Registry.empty.addWorkers workers).mapError fun (name, e) => .worker name e
  let (r, parsed) ← parseFiles r files
  let r ← defineFiles r parsed
  pure ⟨r, parsed.flatMap (diagnose r)⟩

end Library

inductive RegisterError where
  | load (cause : LoadError)
  /-- Definitions with errors. -/
  | rejected (errors : List Diagnostic)
deriving DecidableEq

def RegisterError.account : RegisterError → Account
  | load cause => cause.account
  | rejected errors =>
    [.text ("Definition validation failed:\n  " ++ "\n  ".intercalate (errors.map Diagnostic.text))]

/-- A registry of definitions without errors. -/
def registerDefinitions (files : List SourceFile) (workers : List String) :
    Except RegisterError Registry := do
  let l ← (Library.load files workers).mapError .load
  match l.errors with
  | [] => pure l.registry
  | errors => throw (.rejected errors)

end Workflow
