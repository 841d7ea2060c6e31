import Workflow.Environment.Basic
import Workflow.Settings.Place

/-!
Settings from environment variables: `SUPERWORKER__SECTION__KEY` sets a key of a section.
-/

namespace Workflow.Environment

def marker : String := "superworker__"

/-- The key of the setting that a variable makes; capitals count as small letters. -/
def settingKey? (name : String) : Option String :=
  let name := Setting.folded name
  if name.startsWith marker then
    some (".".intercalate ((name.drop marker.length).toString.splitOn "__"))
  else none

/-- The keys whose values are lists with commas between the items. -/
def listKeys : List String := ["definitions.paths", "definitions.workers"]

/-- A flag or a number where the text is one, a list where one is due, and text otherwise. -/
def setting (key value : String) : Setting :=
  let cs := value.toList
  if value.toLower = "true" then .flag true
  else if value.toLower = "false" then .flag false
  else
    match Numeral.integer? cs, Numeral.number? cs with
    | some z, _ => .integer z
    | none, some x => .double x
    | none, none =>
      if key ∈ listKeys then .list ((value.splitOn ",").map .text) else .text value

/-- The settings that variables make, in the order of the variables. -/
def settings (vars : Environment) : List (String × Setting) :=
  vars.filterMap fun (name, value) => (settingKey? name).map fun key => (key, setting key value)

end Workflow.Environment
