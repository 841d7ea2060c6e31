import Workflow.Command.Session

/-!
The command line program: it gathers the files and variables that a command line speaks of, lets
the session work on them, and prints how that ends.
-/

namespace Workflow.Program

/-- The text of a file, `none` when it cannot be read. -/
def readFile? (path : String) : IO (Option String) := do
  try
    let text ← IO.FS.readFile path
    pure (some text)
  catch _ => pure none

/-- The variables that settings are mostly read from. -/
def variableNames : List String :=
  [Settings.pathVariable, "SUPERWORKER__LOG__FILTER", "SUPERWORKER__DEFINITIONS__PATHS",
    "SUPERWORKER__DEFINITIONS__WORKERS", "SUPERWORKER__RUNTIME__MAX_IN_FLIGHT"]

def readVariables : List String → IO Environment
  | [] => pure []
  | name :: rest => do
    let others ← readVariables rest
    match ← IO.getEnv name with
    | some value => pure ((name, value) :: others)
    | none => pure others

/-- The whole environment where the system shows it, otherwise those variables that have a known
name. -/
def environment : IO Environment := do
  match ← readFile? "/proc/self/environ" with
  | some block => pure (Environment.ofBlock block)
  | none => readVariables variableNames

def gatherFile (path : String) : IO FileTree := do
  match ← readFile? path with
  | some text => pure (FileTree.ofList [(path, text)])
  | none => pure (FileTree.ofList [])

def gatherAll (gather : String → IO FileTree) : List String → IO FileTree
  | [] => pure (FileTree.ofList [])
  | path :: rest => do pure ((← gather path).join (← gatherAll gather rest))

/-- A file, or a directory with the definition files in it; a path has room for no more levels
than `depth`. -/
def gatherUnder (isNamed : Bool) : (depth : Nat) → String → IO FileTree
  | 0, _ => pure (FileTree.ofList [])
  | depth + 1, path => do
    let place := (← IO.currentDir) / path
    if ← place.isDir then
      let entries ← place.readDir
      let paths := entries.toList.map fun e => Path.below path e.fileName
      let inner ← gatherAll (gatherUnder false depth) paths
      pure (inner.addDirectory path)
    else if isNamed || path.endsWith ".sw" then gatherFile path
    else pure (FileTree.ofList [])

def deepest : Nat := 2048

/-- The paths with definitions that an invocation may come to. -/
def roots (w : Surroundings) (i : Command.Invocation) : List String :=
  let named :=
    match Settings.load w (Workshop.settingsRequest i.settingsFile) with
    | .ok s => s.paths
    | .error _ => []
  let operands :=
    match i.action with
    | .check paths => paths
    | _ => []
  named ++ i.definitions ++ operands

def gather (environment : Environment) (i : Command.Invocation) : IO Surroundings := do
  let q := Workshop.settingsRequest i.settingsFile
  let dotted ← gatherFile ".env"
  let path := Settings.path? ⟨dotted, environment⟩ q
  let files ← gatherAll gatherFile (Settings.places path)
  let w : Surroundings := ⟨dotted.join files, environment⟩
  let definitions ← gatherAll (gatherUnder true deepest) (roots w i)
  pure ⟨w.files.join definitions, environment⟩

/-- A random identifier of version 4: thirty-two hexadecimal digits in five groups. -/
def identifier : IO String := do
  let high ← IO.rand 0 1152921504606846975
  let low ← IO.rand 0 1152921504606846975
  let variant ← IO.rand 8 11
  let digits (width n : Nat) : List Char :=
    let ds := Nat.toDigits 16 n
    List.replicate (width - ds.length) '0' ++ ds
  let front := digits 15 high
  let back := digits 15 low
  let group (cs : List Char) : String := String.ofList cs
  pure ("-".intercalate [group (front.take 8), group ((front.drop 8).take 4),
    group ('4' :: front.drop 12), group (digits 1 variant ++ back.take 3), group (back.drop 3)])

def reasonText : Reason → String
  | .text message => message
  | .file => "the file cannot be read"
  | .settings => "the settings cannot be read"
  | .json => "no JSON of that kind"
  | .filter => "no directives of that kind"
  | .unreadable span => s!"syntax error at line {span.startLine + 1}, col {span.startCol + 1}"

def finish (e : Command.Ending) : IO UInt32 := do
  IO.print e.output
  match e.failure with
  | some account => IO.eprintln ("Error: " ++ ": ".intercalate (account.map reasonText))
  | none => if e.code = 2 then IO.eprint Command.helpText
  pure e.code.toUInt32

def run (words : List String) : IO UInt32 := do
  let environment ← environment
  let w ←
    match Command.read words with
    | .ok i => gather environment i
    | .error _ => pure ⟨FileTree.ofList [], environment⟩
  finish (Command.execute w (← identifier) words)

end Workflow.Program

def main (words : List String) : IO UInt32 := Workflow.Program.run words
