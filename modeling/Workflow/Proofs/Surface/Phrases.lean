import Workflow.Proofs.Surface.Syntax
import Workflow.Surface.Tree

/-!
The phrase that a match stands for. A match that the grammar cannot give stands for none.
-/

namespace Workflow.Surface

def Match.rule {ν : Type} : Match ν → ν
  | .mk r _ _ _ _ => r

def Match.text {ν : Type} : Match ν → List Char
  | .mk _ _ _ text _ => text

namespace Syntax

abbrev Phrase := Match RuleName

/-- The word of a symbol, without its colon. -/
def symbolName (text : List Char) : List Char := text.dropWhile (· = ':')

/-- The word of a key, without its colon. -/
def keyName (text : List Char) : List Char := (text.reverse.dropWhile (· = ':')).reverse

mutual

def literal? : Phrase → Option Literal
  | .mk .literal _ _ _ [m] => literal? m
  | .mk .string a b text _ => some (.token text ⟨a, b⟩)
  | .mk .number a b text _ => some (.token text ⟨a, b⟩)
  | .mk .boolean _ _ text _ => some (.bool (text == "true".toList))
  | .mk .nil _ _ _ _ => some .nil
  | .mk .array _ _ _ items => (literals? items).map .array
  | _ => none

def literals? : List Phrase → Option (List Literal)
  | [] => some []
  | m :: ms => do
    let l ← literal? m
    let ls ← literals? ms
    pure (l :: ls)

end

def argValue? : Phrase → Option ArgValue
  | .mk .symbol _ _ text _ => some (.symbol (symbolName text))
  | m => (literal? m).map .literal

def argument? : Phrase → Option Argument
  | .mk .symbol a b text _ => some (.shorthand (symbolName text) ⟨a, b⟩)
  | .mk .keywordArg a b _ [key, value] => do
    let v ← argValue? value
    pure (.keyed (keyName key.text) v ⟨a, b⟩)
  | _ => none

def binding? : Phrase → Option BindingPhrase
  | .mk .binding a b _ [list, element] =>
    some ⟨keyName list.text, symbolName element.text, ⟨a, b⟩⟩
  | _ => none

/-- Words that belong to the form of a phrase only, and the end of the text. -/
def isMark : RuleName → Bool
  | .kwSuperworker | .kwWorkers | .kwBatch | .kwDo | .kwEnd | .endOfInput => true
  | _ => false

mutual

def statement? : Phrase → Option Statement
  | .mk .batchStmt a b _ [_, .mk .bindingList _ _ _ bindings, body] => do
    let bs ← bindings.mapM binding?
    let body ← block? body
    pure (.batch bs body ⟨a, b⟩)
  | .mk .batchStmt a b _ [_, body] => do
    let body ← block? body
    pure (.batch [] body ⟨a, b⟩)
  | .mk .callStmt a b _ [name, .mk .argList _ _ _ args, nested] => do
    let args ← args.mapM argument?
    let nested ← block? nested
    pure (.call name.text args (some nested) ⟨a, b⟩)
  | .mk .callStmt a b _ [name, .mk .argList _ _ _ args] => do
    let args ← args.mapM argument?
    pure (.call name.text args none ⟨a, b⟩)
  | .mk .callStmt a b _ [name, nested] => do
    let nested ← block? nested
    pure (.call name.text [] (some nested) ⟨a, b⟩)
  | .mk .callStmt a b _ [name] => some (.call name.text [] none ⟨a, b⟩)
  | _ => none

def block? : Phrase → Option Block
  | .mk .block a b _ parts | .mk .body a b _ parts => do
    let statements ← statements? parts
    pure (.mk statements ⟨a, b⟩)
  | _ => none

def statements? : List Phrase → Option (List Statement)
  | [] => some []
  | m :: ms =>
    if isMark m.rule then statements? ms
    else do
      let s ← statement? m
      let ss ← statements? ms
      pure (s :: ss)

end

def parameter? : Phrase → Option Parameter
  | .mk .symbol a b text _ => some ⟨symbolName text, ⟨a, b⟩⟩
  | _ => none

def item? : Phrase → Option Item
  | .mk .workersDecl _ _ _ (_ :: names) => some (.workers (names.map Match.text))
  | .mk .definition a b _ [_, name, .mk .paramList _ _ _ parameters, body] => do
    let ps ← parameters.mapM parameter?
    let body ← block? body
    pure (.definition ⟨name.text, ps, body, ⟨a, b⟩⟩)
  | .mk .definition a b _ [_, name, body] => do
    let body ← block? body
    pure (.definition ⟨name.text, [], body, ⟨a, b⟩⟩)
  | _ => none

def items? : Phrase → Option (List Item)
  | .mk .program _ _ _ parts => (parts.filter fun m => ! isMark m.rule).mapM item?
  | _ => none

end Syntax

end Workflow.Surface
