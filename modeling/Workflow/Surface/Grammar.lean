import Workflow.Surface.Rule
import Workflow.Surface.Tree

/-!
The grammar. Blanks and comments may stand between any two words. An optional part keeps the
blanks before the place where it could have stood, so a call without a block runs up to the next
statement. A nested phrase takes a character before it nests again, so the length of the rest
bounds the depth.
-/

namespace Workflow.Surface

open Rule (skip char lexeme commaSeparated)

/-- What a rule matches, with the extent of the text that it takes. -/
def located {α β : Type} (p : Rule α) (f : α → Extent → β) : Rule β := do
  let start ← Rule.offset
  let a ← p
  let stop ← Rule.offset
  pure (f a ⟨start, stop⟩)

/-! ### Literals -/

def plainLiteral : Rule Literal :=
  Rule.orElse (located (lexeme string) .token) <|
  Rule.orElse (located (lexeme number) .token) <|
  Rule.orElse (do
    let text ← lexeme boolean
    pure (.bool (text == "true".toList))) <|
  do
    let _ ← lexeme (keyword "nil")
    pure .nil

def array (literal : Rule Literal) : Rule Literal :=
  Rule.named do
    char '['
    skip
    let items ← Rule.optional (commaSeparated literal)
    skip
    char ']'
    pure (.array (items.getD []))

/-- A literal in which arrays nest at most so deep. -/
def literalUpTo : (depth : Nat) → Rule Literal
  | 0, c => plainLiteral c
  | depth + 1, c => Rule.orElse plainLiteral (array (literalUpTo depth)) c

def literal : Rule Literal := fun c => literalUpTo c.rest.length c

/-! ### Invocations -/

/-- A colon and, with no blank between, an identifier. -/
def symbol : Rule (List Char) :=
  Rule.named do
    char ':'
    lexeme identifier

def keyed : Rule Argument :=
  located (do
    let k ← lexeme key
    skip
    let v ← Rule.orElse (do pure (.symbol (← symbol))) (do pure (.literal (← literal)))
    pure (k, v)) fun (k, v) e => .keyed k v e

def argument : Rule Argument := Rule.orElse keyed (located symbol .shorthand)

def binding : Rule BindingPhrase :=
  located (do
    let list ← lexeme key
    skip
    let element ← symbol
    pure (list, element)) fun (list, element) e => ⟨list, element, e⟩

def batch (block : Rule Block) : Rule Statement :=
  located (do
    let _ ← lexeme (keyword "batch")
    skip
    let bindings ← Rule.optional (commaSeparated binding)
    skip
    let body ← block
    pure (bindings.getD [], body)) fun (bindings, body) e => .batch bindings body e

def call (block : Rule Block) : Rule Statement :=
  located (do
    let n ← lexeme name
    skip
    let args ← Rule.optional (commaSeparated argument)
    skip
    let nested ← Rule.optional block
    pure (n, args.getD [], nested)) fun (n, args, nested) e => .call n args nested e

def statement (block : Rule Block) : Rule Statement := Rule.orElse (batch block) (call block)

/-- A block in which blocks nest less than so deep. -/
def blockUpTo : (depth : Nat) → Rule Block
  | 0, c => Rule.refuse c
  | depth + 1, c =>
    located (do
      let _ ← lexeme (keyword "do")
      skip
      let statements ← Rule.star (statement (blockUpTo depth))
      skip
      let _ ← lexeme (keyword "end")
      pure statements) .mk c

def block : Rule Block := fun c => blockUpTo c.rest.length c

/-! ### Files -/

def workers : Rule Item := do
  let _ ← lexeme (keyword "workers")
  skip
  pure (.workers (← commaSeparated (lexeme name)))

def parameter : Rule Parameter := located symbol .mk

def definition : Rule Item :=
  located (do
    let _ ← lexeme (keyword "superworker")
    skip
    let n ← lexeme name
    skip
    let parameters ← Rule.optional (commaSeparated parameter)
    skip
    let body ← block
    pure (n, parameters.getD [], body)) fun (n, parameters, body) e =>
      .definition ⟨n, parameters, body, e⟩

/-- The end of the text. -/
def atEnd : Rule Unit := fun c => if c.rest.isEmpty then ⟨0, some ((), c)⟩ else Rule.refuse c

/-- A rule that takes a text as a whole. -/
def whole {α : Type} (p : Rule α) : Rule (List α) := do
  skip
  let items ← Rule.star p
  skip
  atEnd
  pure items

def body : Rule Block := located (whole (statement block)) .mk

def program : Rule (List Item) := whole (Rule.orElse workers definition)

/-- Matches a text from its start; `error` is the furthest offset at which something was tried
in vain. -/
def read {α : Type} (p : Rule α) (text : List Char) : Except Nat α :=
  let t := p ⟨0, text⟩
  match t.found with
  | some (a, _) => .ok a
  | none => .error t.reached

end Workflow.Surface
