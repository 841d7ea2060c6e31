import Workflow.Number.Numeral
import Workflow.Pattern.Check
import Workflow.Text.Bytes

/-!
Log filters: directives with commas between them. A directive names a level for everything, or it
names a target, a span in brackets, or both, and perhaps a level for these. The parts of a directive
are found in it without the spaces around it, and then cut out of the directive as it is given: with
spaces in front of it a part begins and ends as many bytes too early.
-/

namespace Workflow.LogFilter

def levelNames : List String := ["trace", "debug", "info", "warn", "error", "off"]

/-- A level is a name or a number up to five; it may be left out behind the sign of equality. -/
def isLevel (cs : List Char) : Bool :=
  cs.isEmpty || (String.ofList cs).toLower ∈ levelNames || (Numeral.count? cs).any (· ≤ 5)

/-- A value is a number, or a pattern that can be used. -/
def isValue (value : String) : Bool :=
  (Numeral.number? value.toList).isSome || (Pattern.parse? value).any Pattern.isUsable

/-- A field is a name, then perhaps a sign of equality and a value; what follows another such sign
does not matter. -/
def isField (cs : List Char) : Bool :=
  match (String.ofList cs).splitOn "=" with
  | _ :: value :: _ => isValue value
  | _ => true

/-- How far into a directive it is to the rest of it that is left when spaces are taken off. -/
def placeOf (directive rest : List Char) : Nat :=
  Text.utf8Length (Text.trimmed directive) - Text.utf8Length rest

/-- What may stand at the end of a directive: nothing, or a level. -/
def isEnd (directive : List Char) : List Char → Bool
  | [] => true
  | '=' :: level => isLevel (Text.dropBytes (placeOf directive level) directive)
  | _ => false

/-- The text of fields with a rest behind them. -/
def fieldText (directive fields rest : List Char) : List Char :=
  let place := placeOf directive rest
  Text.dropBytes (place - Text.utf8Length fields) (Text.takeBytes place directive)

/-- A span behind its opening bracket, and what follows it: a name, then perhaps a field in
braces. -/
def isSpan (directive cs : List Char) : Bool :=
  match cs.dropWhile fun c => c ≠ ']' && c ≠ '\x7b' with
  | ']' :: rest => isEnd directive rest
  | '\x7b' :: cs =>
    let field := cs.takeWhile (· ≠ '\x7d')
    let rest := cs.dropWhile (· ≠ '\x7d')
    match rest with
    | '\x7d' :: ']' :: behind =>
      ! field.isEmpty && isField (fieldText directive field rest) && isEnd directive behind
    | _ => false
  | _ => false

/-- A directive is told to be one by its first character. -/
def isTargetStart (c : Char) : Bool := Text.isAlphanumeric c || c = '-' || c = ':' || c = '_'

/-- A target reaches up to a level or a span. -/
def isDirective (directive : List Char) : Bool :=
  match Text.trimmed directive with
  | [] => false
  | '[' :: span => isSpan directive span
  | c :: rest =>
    isTargetStart c &&
      match rest.dropWhile fun c => c ≠ '=' && c ≠ '[' with
      | '[' :: span => isSpan directive span
      | rest => isEnd directive rest

/-- Empty directives are skipped. -/
def isValid (filter : String) : Bool :=
  ((filter.splitOn ",").filter fun s => ! s.isEmpty).all fun s => isDirective s.toList

end Workflow.LogFilter
