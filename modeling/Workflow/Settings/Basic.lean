import Workflow.Environment.File
import Workflow.Library.FileTree
import Workflow.Reason
import Workflow.Settings.Filter
import Workflow.Settings.Variables
import Workflow.Toml.Document
import Workflow.Toml.Printer

/-!
The settings of a session. They are layered, each layer over those before it: what is built in, a
file, environment variables, and what was asked for. A named file has to be there.
-/

namespace Workflow

structure Settings where
  logFilter : String
  paths : List String
  workers : List String
  maxInFlight : Nat
deriving DecidableEq

inductive SettingsError where
  | unreadable (path : Option String)
  | nothingInFlight
  | badFilter (filter : String)
  /-- A limit that the written form has no number for. -/
  | unwritable
deriving DecidableEq

def SettingsError.account : SettingsError → Account
  | unreadable none => [.text "Failed to load configuration", .settings]
  | unreadable (some path) => [.text s!"Failed to load configuration from {path}", .settings]
  | nothingInFlight => [.text "runtime.max_in_flight must be at least 1"]
  | badFilter filter => [.text s!"Invalid log.filter '{filter}'", .filter]
  | unwritable =>
    [.text "Failed to serialize configuration", .text "out-of-range value for u64 type"]

/-- What surrounds a session: the files and the variables that it sees. -/
structure Surroundings where
  files : FileTree
  environment : Environment

/-- What is asked of the settings from outside. -/
structure SettingsRequest where
  path : Option String
  logFilter : Option String
  maxInFlight : Option Nat
  /-- Whether the file `.env` adds to the variables. -/
  readsVariables : Bool

namespace Settings

def builtIn : Setting :=
  .table [("log", .table [("filter", .text "info")]),
    ("runtime", .table [("max_in_flight", .integer 64)])]

/-- Numbers in settings are signed, so those from `2 ^ 63` on come out negative. -/
def asSigned (n : Nat) : Int := Int.bmod n 18446744073709551616

def pathVariable : String := "SUPERWORKER_CONFIG_PATH"

def defaultName : String := "superworker"

def ending : String := ".toml"

/-- A path with the ending behind its last name; `none` when it ends in no name. -/
def withEnding? (path : String) : Option String :=
  let isNameless (s : String) : Bool := s = "" || s = "."
  let segments := ((Path.segments path).reverse.dropWhile isNameless).reverse
  match segments.getLast? with
  | none => none
  | some last => if last = ".." then none else some ("/".intercalate segments ++ ending)

/-- Where the settings file of a name may be; the name may lack its ending. -/
def places (path : Option String) : List String :=
  let name := path.getD defaultName
  name :: (withEnding? name).toList

/-- The fields of the file at the path, or of the default one if it is there. -/
def ofFile (files : FileTree) (path : Option String) : Option (List (String × Setting)) :=
  match path, (places path).findSome? files.read? with
  | _, some text => Toml.parse? text
  | some _, none => none
  | none, none => some []

/-- The variables of a session, those of the file `.env` behind the others. -/
def environment (w : Surroundings) (q : SettingsRequest) : Environment :=
  match q.readsVariables, w.files.read? ".env" with
  | true, some text => w.environment.extendByFile text
  | _, _ => w.environment

/-- The path of the settings file, if one is named. -/
def path? (w : Surroundings) (q : SettingsRequest) : Option String :=
  q.path <|> Entries.get? pathVariable (environment w q)

/-- What is asked for by name. -/
def asked (q : SettingsRequest) : List (String × Setting) :=
  let filter := q.logFilter.map fun s => ("log.filter", Setting.text s)
  let limit := q.maxInFlight.map fun n => ("runtime.max_in_flight", Setting.integer (asSigned n))
  filter.toList ++ limit.toList

/-- A part of a section by a reading of settings. -/
def part? {α : Type} (read : Setting → Option α) (section? : Option Setting) (key : String)
    (position : Nat) (default : α) : Option α := do
  match ← Setting.part? section? key position with
  | none => some default
  | some s => read s

def ofFields? (fields : List (String × Setting)) : Option Settings := do
  let log := Entries.get? "log" fields
  let definitions := Entries.get? "definitions" fields
  let runtime := Entries.get? "runtime" fields
  some {
    logFilter := ← part? Setting.text? log "filter" 0 "info"
    paths := ← part? Setting.texts? definitions "paths" 0 []
    workers := ← part? Setting.texts? definitions "workers" 1 []
    maxInFlight := ← part? Setting.count? runtime "max_in_flight" 0 64 }

/-- All layers, each over those before it. The file and the variables are one tree before they are
laid over what is built in. -/
def layered (w : Surroundings) (q : SettingsRequest) : Option Setting := do
  let file ← ofFile w.files (path? w q)
  let given := ((Setting.table []).putAll file).putAll (Environment.settings (environment w q))
  some ((builtIn.putAll given.fields).putAll (asked q))

def check (s : Settings) : Except SettingsError Settings :=
  if s.maxInFlight = 0 then .error .nothingInFlight
  else if LogFilter.isValid s.logFilter then .ok s
  else .error (.badFilter s.logFilter)

def load (w : Surroundings) (q : SettingsRequest) : Except SettingsError Settings :=
  match (layered w q).bind fun s => ofFields? s.fields with
  | none => .error (.unreadable (path? w q))
  | some s => s.check

/-- The written form, section by section. -/
def toml (s : Settings) : Except SettingsError String :=
  if s.maxInFlight < 9223372036854775808 then
    .ok (s!"[log]\nfilter = {Toml.quote s.logFilter}\n\n" ++
      s!"[definitions]\npaths = {Toml.array s.paths}\nworkers = {Toml.array s.workers}\n\n" ++
      s!"[runtime]\nmax_in_flight = {s.maxInFlight}\n")
  else .error .unwritable

end Settings

end Workflow
