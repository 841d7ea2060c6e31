import Workflow.Data.SortedMap
import Workflow.Text.Front

/-!
Environments: variables and their values, in the order in which they were set.
-/

namespace Workflow

/-- The names of variables and their values. -/
abbrev Environment := List (String × String)

namespace Environment

/-- A variable as it stands in a list of entries. -/
def entryText (entry : String × String) : List Char := entry.1.toList ++ '=' :: entry.2.toList

/-- What stands behind a name and a sign of equality in the first entry that begins with them; a
name with such a sign in it reaches into the value. What is not there counts as empty. -/
def valueOf (vars : Environment) (name : String) : String :=
  if name.isEmpty then ""
  else
    let found := vars.findSome? fun e => Text.after? (name.toList ++ ['=']) (entryText e)
    String.ofList (found.getD [])

/-- Sets a variable unless it is set. -/
def setNew (vars : Environment) (name value : String) : Environment :=
  if (Entries.get? name vars).isSome then vars else vars ++ [(name, value)]

/-- An entry `NAME=VALUE`; the name is not empty. -/
def ofEntry? (entry : String) : Option (String × String) :=
  let cs := entry.toList
  let name := cs.takeWhile (· ≠ '=')
  match name, cs.dropWhile (· ≠ '=') with
  | _ :: _, _ :: value => some (String.ofList name, String.ofList value)
  | _, _ => none

/-- The environment of a list of entries, a zero behind each. -/
def ofBlock (block : String) : Environment := (block.splitOn "\x00").filterMap ofEntry?

/-- A variable that is set keeps its value. -/
theorem setNew_of_isSome {vars : Environment} {name : String} (value : String)
    (h : (Entries.get? name vars).isSome) : setNew vars name value = vars := by
  simp [setNew, h]

/-- An entry begins with a name and a sign of equality when it has this name. -/
theorem after?_entry {name key value : List Char} (hn : '=' ∉ name) (hk : '=' ∉ key) :
    Text.after? (name ++ ['=']) (key ++ '=' :: value) =
      if name = key then some value else none := by
  induction name generalizing key with
  | nil =>
    cases key with
    | nil => simp [Text.after?]
    | cons c key =>
      have : '=' ≠ c := fun e => hk (e ▸ List.mem_cons_self)
      simp [Text.after?, this]
  | cons d name ih =>
    cases key with
    | nil =>
      have : d ≠ '=' := fun e => hn (e ▸ List.mem_cons_self)
      simp [Text.after?, this]
    | cons c key =>
      have hkey : '=' ∉ key := fun e => hk (List.mem_cons_of_mem _ e)
      have := ih (fun e => hn (List.mem_cons_of_mem _ e)) hkey
      by_cases h : d = c <;> simp [Text.after?, h, this]

/-- Where no name has a sign of equality in it, a value is found by the whole name. -/
theorem valueOf_eq_get? {vars : Environment} {name : String} (hn : name ≠ "")
    (hs : '=' ∉ name.toList) (hv : ∀ e ∈ vars, '=' ∉ e.1.toList) :
    valueOf vars name = (Entries.get? name vars).getD "" := by
  have he : name.isEmpty = false := by simpa using hn
  simp only [valueOf, he, Bool.false_eq_true, if_false]
  induction vars with
  | nil => simp [Entries.get?]
  | cons e vars ih =>
    obtain ⟨key, value⟩ := e
    have hk := hv _ List.mem_cons_self
    simp only [List.findSome?_cons, entryText, after?_entry hs hk, Entries.get?,
      String.toList_inj]
    by_cases h : name = key
    · simp [h]
    · simpa [h, entryText] using ih fun e m => hv e (List.mem_cons_of_mem _ m)

end Environment

end Workflow
