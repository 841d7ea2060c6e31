import Workflow.Registry
import Workflow.Surface.Reading

/-!
Accounts of failures. An account tells first what could not be done, then why, and so on down to
a cause. Where a cause is told by the system or lies in a foreign format, only its kind is kept.
-/

namespace Workflow

inductive Reason where
  | text (message : String)
  /-- A file or a directory that cannot be read. -/
  | file
  /-- Settings that cannot be read or have no meaning. -/
  | settings
  /-- A text that is not the JSON asked for. -/
  | json
  /-- A log filter that has no meaning. -/
  | filter
  /-- A source text that cannot be read on from a place. -/
  | unreadable (span : Span)
deriving DecidableEq

abbrev Account := List Reason

def RegistryError.account (e : RegistryError) : Account := [.text e.message]

def ParseError.account (e : ParseError) : Account :=
  match e.message? with
  | some message => [.text message]
  | none => [.unreadable e.span]

end Workflow
