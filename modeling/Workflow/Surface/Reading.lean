import Workflow.Surface.Grammar
import Workflow.Source.Lines
import Workflow.Node.Basic

/-!
From a source text to trees. A text that does not match the grammar is unreadable; one that
matches can still be malformed, and then the first fault in source order is told, a block being
looked through before the statement that holds it.
-/

namespace Workflow

/-- Where a list of statements stands. -/
inductive Holder where
  | body
  | superworker (name : String)
  | batch
  | nested (name : String)
deriving DecidableEq

def Holder.describe : Holder → String
  | body => "superworker body"
  | superworker name => s!"superworker '{name}'"
  | batch => "batch body"
  | nested name => s!"block nested under '{name}'"

inductive Malformation where
  | empty (holder : Holder)
  | parameterTwice (name : String)
  | listTwice (name : String)
  | elementTwice (name : String)
  | noBinding
  | argumentTwice (key : String)
  | literal (token : List Char) (refusal : Json.Refusal)
deriving DecidableEq

def Malformation.message : Malformation → String
  | empty holder => s!"{holder.describe} is empty"
  | parameterTwice name => s!"Duplicate parameter ':{name}'"
  | listTwice name => s!"Batch binds list '{name}' twice"
  | elementTwice name => s!"Batch binds element ':{name}' twice"
  | noBinding => "batch requires at least one \x60list: :element\x60 binding"
  | argumentTwice key => s!"Argument '{key}' given twice"
  | literal token refusal =>
    s!"Invalid literal {String.ofList token}: {refusal.message token}"

inductive ParseError where
  | unreadable (span : Span)
  | malformed (reason : Malformation) (span : Span)
deriving DecidableEq

namespace ParseError

def span : ParseError → Span
  | unreadable s => s
  | malformed _ s => s

/-- What a parser makes of a definition that it can read and does not accept. -/
def message? : ParseError → Option String
  | unreadable _ => none
  | malformed reason _ => some ("malformed definition: " ++ reason.message)

end ParseError

namespace Surface

abbrev Reading (α : Type) := Except ParseError α

def Extent.span (e : Extent) (lines : Lines) : Span := lines.span e.start e.stop

def malformed {α : Type} (reason : Malformation) (span : Span) : Reading α :=
  .error (.malformed reason span)

/-- Reads the text of a string or a number. -/
def readToken (token : List Char) : Except Json.Refusal Value :=
  match token with
  | '"' :: _ => (Json.readString token).map fun (s, _) => .string s
  | _ => (Json.readNumber token).map fun (n, _) => .number n

mutual

def Literal.toValue (lines : Lines) : Literal → Reading Value
  | .token text e =>
    match readToken text with
    | .ok v => .ok v
    | .error r => malformed (.literal text r) (e.span lines)
  | .bool b => .ok (.bool b)
  | .nil => .ok .null
  | .array items => (Literal.toValues lines items).map .array

def Literal.toValues (lines : Lines) : List Literal → Reading (List Value)
  | [] => .ok []
  | l :: ls => do
    let v ← l.toValue lines
    let vs ← Literal.toValues lines ls
    pure (v :: vs)

end

def Argument.extent : Argument → Extent
  | .shorthand _ e => e
  | .keyed _ _ e => e

def Argument.toArg (lines : Lines) : Argument → Reading Arg
  | .shorthand name _ => .ok (.param (String.ofList name))
  | .keyed key (.symbol name) _ => .ok (.keyed (String.ofList key) (String.ofList name))
  | .keyed key (.literal l) _ => do
    let v ← l.toValue lines
    pure (.literal (String.ofList key) v)

/-- Reads the arguments of a call behind those with the keys `seen`. -/
def readArgs (lines : Lines) (seen : List String) : List Argument → Reading (List Arg)
  | [] => .ok []
  | a :: rest => do
    let arg ← a.toArg lines
    if arg.key ∈ seen then malformed (.argumentTwice arg.key) (a.extent.span lines)
    else
      let args ← readArgs lines (arg.key :: seen) rest
      pure (arg :: args)

/-- Reads the bindings of a batch behind those already `seen`. -/
def readBindings (lines : Lines) (seen : List Binding) :
    List BindingPhrase → Reading (List Binding)
  | [] => .ok []
  | p :: rest => do
    let b : Binding := ⟨String.ofList p.list, String.ofList p.element⟩
    if b.list ∈ seen.map Binding.list then malformed (.listTwice b.list) (p.extent.span lines)
    else if b.element ∈ seen.map Binding.element then
      malformed (.elementTwice b.element) (p.extent.span lines)
    else
      let bs ← readBindings lines (b :: seen) rest
      pure (b :: bs)

/-- One statement stands for itself, more are a sequence, none is a fault. -/
def assemble (holder : Holder) (span : Span) : List Node → Reading Node
  | [] => malformed (.empty holder) span
  | [n] => .ok n
  | steps => .ok (.sequence steps span)

mutual

def Statement.toNode (lines : Lines) : Statement → Reading Node
  | .batch phrases body e => do
    let bindings ← readBindings lines [] phrases
    let node ← body.toNode lines .batch
    if bindings.isEmpty then malformed .noBinding (e.span lines)
    else pure (.batch bindings node (e.span lines))
  | .call name args none e => do
    let args ← readArgs lines [] args
    pure (.call (String.ofList name) args none (e.span lines))
  | .call name args (some block) e => do
    let args ← readArgs lines [] args
    let nested ← block.toNode lines (.nested (String.ofList name))
    pure (.call (String.ofList name) args (some nested) (e.span lines))

def Block.toNode (lines : Lines) (holder : Holder) : Block → Reading Node
  | .mk statements e => do
    let nodes ← toNodes lines statements
    assemble holder (e.span lines) nodes

def toNodes (lines : Lines) : List Statement → Reading (List Node)
  | [] => .ok []
  | s :: rest => do
    let n ← s.toNode lines
    let ns ← toNodes lines rest
    pure (n :: ns)

end

/-- Reads the parameters of a definition behind those already `seen`. -/
def readParameters (lines : Lines) (seen : List String) : List Parameter → Reading (List String)
  | [] => .ok []
  | p :: rest => do
    let name := String.ofList p.name
    if name ∈ seen then malformed (.parameterTwice name) (p.extent.span lines)
    else
      let names ← readParameters lines (name :: seen) rest
      pure (name :: names)

def DefinitionPhrase.toDefinition (lines : Lines) (p : DefinitionPhrase) : Reading Definition := do
  let name := String.ofList p.name
  let parameters ← readParameters lines [] p.parameters
  let body ← p.body.toNode lines (.superworker name)
  pure ⟨name, parameters, body, none, p.extent.span lines⟩

end Surface

/-- What a definition file declares, in source order. -/
structure DefinitionFile where
  workers : List String
  definitions : List Definition

namespace Surface

def readItems (lines : Lines) : List Item → Reading DefinitionFile
  | [] => .ok ⟨[], []⟩
  | .workers names :: rest => do
    let file ← readItems lines rest
    pure ⟨names.map String.ofList ++ file.workers, file.definitions⟩
  | .definition phrase :: rest => do
    let d ← phrase.toDefinition lines
    let file ← readItems lines rest
    pure ⟨file.workers, d :: file.definitions⟩

/-- The fault at an offset where nothing fits: the one column there, at no offset. -/
def unreadableAt (lines : Lines) (offset : Nat) : ParseError :=
  let (line, col) := lines.lineCol offset
  .unreadable ⟨0, 0, line, col, line, col + 1⟩

end Surface

/-- Reads a list of statements: one stands for itself, several are a sequence. -/
def parseBody (source : String) : Except ParseError Node :=
  let text := source.toList
  let lines := Lines.ofText text
  match Surface.read Surface.body text with
  | .error offset => .error (Surface.unreadableAt lines offset)
  | .ok block => block.toNode lines .body

/-- Reads a definition file. -/
def parseFile (source : String) : Except ParseError DefinitionFile :=
  let text := source.toList
  let lines := Lines.ofText text
  match Surface.read Surface.program text with
  | .error offset => .error (Surface.unreadableAt lines offset)
  | .ok items => Surface.readItems lines items

end Workflow
