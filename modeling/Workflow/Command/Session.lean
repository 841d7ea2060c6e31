import Workflow.Command.Invocation
import Workflow.Expand.Emit
import Workflow.Job.Json
import Workflow.Json.Reader
import Workflow.Library.Load
import Workflow.Plan.Outline
import Workflow.Run.Script
import Workflow.Settings.Basic

/-!
What the commands do. A session reads its settings first, so that errors in them come before any
output; compiling and simulating work with a registry of all definitions that are named, without
errors in any of them.
-/

namespace Workflow

def CompileError.account (e : CompileError) : Account := [.text e.message]

def PlanError.account (e : PlanError) : Account := [.text (e.message?.getD "")]

/-- A registry and the settings that it was loaded by. -/
structure Workshop where
  settings : Settings
  registry : Registry

/-- What is loaded beyond what the settings name. -/
structure WorkshopRequest where
  settingsFile : Option String
  paths : List String
  workers : List String
  files : List SourceFile

namespace Workshop

def settingsRequest (path : Option String) : SettingsRequest := ⟨path, none, none, true⟩

/-- Puts a heading over an account. -/
def under {ε α : Type} (heading : String) (account : ε → Account) (e : Except ε α) :
    Except Account α :=
  e.mapError fun x => .text heading :: account x

def load (w : Surroundings) (q : WorkshopRequest) : Except Account Workshop := do
  let settings ← under "Failed to load configuration" SettingsError.account
    (Settings.load w (settingsRequest q.settingsFile))
  let files ← under "Failed to read definition files" Missing.account
    (w.files.discover (settings.paths ++ q.paths))
  let registry ← under "Failed to register definitions" RegisterError.account
    (registerDefinitions (files ++ q.files) (settings.workers ++ q.workers))
  pure ⟨settings, registry⟩

end Workshop

namespace Command

/-- What a command prints and, when it fails, why. -/
structure Outcome where
  output : String
  failure : Option Account
deriving DecidableEq

namespace Outcome

def ofResult (r : Except Account Outcome) : Outcome :=
  match r with
  | .ok o => o
  | .error account => ⟨"", some account⟩

end Outcome

def argsAccount : Account := [.text "--args must be a JSON object", .json]

/-- Arguments by name, written as a JSON object. -/
def readArgs (text : String) : Except Account Scope :=
  match (Json.parse? text).bind Value.fields? with
  | some fields => .ok (SortedMap.ofList fields)
  | none => .error argsAccount

def check (w : Surroundings) (settings : Settings) (definitions paths : List String) :
    Except Account Outcome := do
  let roots := if paths.isEmpty then settings.paths else paths
  let files ← (w.files.discover (roots ++ definitions)).mapError Missing.account
  let library ← (Library.load files settings.workers).mapError LoadError.account
  let report := String.join (library.diagnostics.map fun d => d.text ++ "\n")
  let errors := library.errors.length
  if errors = 0 then
    let count := library.registry.definitionNames.length
    pure ⟨report ++ s!"✓ {count} superworker(s) in {files.length} file(s)\n", none⟩
  else pure ⟨report, some [.text s!"{errors} error(s) in {files.length} file(s)"]⟩

/-- The plan of a named superworker. -/
def planFor (w : Surroundings) (i : Invocation) (name args : String) : Except Account Plan := do
  let shop ← Workshop.load w ⟨i.settingsFile, i.definitions, [], []⟩
  let args ← readArgs args
  let table ← Workshop.under s!"Failed to compile '{name}'" CompileError.account
    (compileDefinition shop.registry args name)
  (Plan.ofTable table).mapError PlanError.account

/-- The JSON report of a run. -/
def report (run : String) (s : Run.State) : Value :=
  .object [("superjob_id", .string run),
    ("status", .string (if s.succeeded then "complete" else "failed")),
    ("dispatched", .array (s.dispatched.map .nat)),
    ("statuses", .object (s.statuses.entries.map fun e =>
      (Table.idText e.1, .string e.2.text)))]

/-- Runs a plan in which the units of some workers fail and no unit takes any time. -/
def simulate (p : Plan) (run : String) (failing : List String) (limit : Nat) : Outcome :=
  let s := (Run.runScript p limit ⟨[], failing⟩).getD (Run.init p)
  ⟨(report run s).pretty ++ "\n",
    if s.succeeded then none else some [.text s!"superjob {run} failed"]⟩

def perform (w : Surroundings) (run : String) (i : Invocation) : Except Account Outcome := do
  let settings ← (Settings.load w (Workshop.settingsRequest i.settingsFile)).mapError
    SettingsError.account
  match i.action with
  | .check paths => check w settings i.definitions paths
  | .compile name args outline =>
    let p ← planFor w i name args
    if outline then pure ⟨p.outlineText?.getD "", none⟩
    else pure ⟨p.table.toValue.pretty ++ "\n", none⟩
  | .simulate name args failing limit =>
    let p ← planFor w i name args
    pure (simulate p run failing (limit.getD settings.maxInFlight))
  | .showSettings =>
    let text ← settings.toml.mapError SettingsError.account
    pure ⟨text, none⟩

/-- How a program ends: its exit code, its output and the account of a failure. -/
structure Ending where
  code : Nat
  output : String
  failure : Option Account
deriving DecidableEq

def versionText : String := "superworker 0.1.0\n"

def helpText : String :=
  "Compile superworker definitions into execution graphs\n\n" ++
  "Usage: superworker [OPTIONS] <COMMAND>\n\n" ++
  "Commands:\n" ++
  "  check     Parse and validate definition files\n" ++
  "  compile   Compile a superworker and print its record table\n" ++
  "  simulate  Compile a superworker and drain it with a simulated dispatcher\n" ++
  "  config    Print the effective configuration\n\n" ++
  "Options:\n" ++
  "      --config <CONFIG>            Path to config file (overrides default search)\n" ++
  "  -d, --definitions <DEFINITIONS>  Extra definition files or directories (repeatable)\n" ++
  "  -h, --help                       Print help\n" ++
  "  -V, --version                    Print version\n"

/-- Everything that a command line does; `run` names the run that it may start. -/
def execute (w : Surroundings) (run : String) (words : List String) : Ending :=
  match read words with
  | .error .misuse => ⟨2, "", none⟩
  | .error .version => ⟨0, versionText, none⟩
  | .error .help => ⟨0, helpText, none⟩
  | .ok i =>
    let o := Outcome.ofResult (perform w run i)
    ⟨if o.failure.isSome then 1 else 0, o.output, o.failure⟩

end Command

end Workflow
