/-!
The phrases of the language as they are written, each with the byte offsets of its two ends where
a message may point at it. Nothing is checked here that the grammar does not ask for.
-/

namespace Workflow.Surface

structure Extent where
  start : Nat
  stop : Nat
deriving DecidableEq

/-- A string or number keeps its text, for the JSON reader to judge. -/
inductive Literal where
  | token (text : List Char) (extent : Extent)
  | bool (b : Bool)
  | nil
  | array (items : List Literal)

inductive ArgValue where
  | symbol (name : List Char)
  | literal (value : Literal)

inductive Argument where
  | shorthand (name : List Char) (extent : Extent)
  | keyed (key : List Char) (value : ArgValue) (extent : Extent)

structure BindingPhrase where
  list : List Char
  element : List Char
  extent : Extent

mutual

inductive Statement where
  | batch (bindings : List BindingPhrase) (body : Block) (extent : Extent)
  | call (name : List Char) (args : List Argument) (block : Option Block) (extent : Extent)

inductive Block where
  | mk (statements : List Statement) (extent : Extent)

end

structure Parameter where
  name : List Char
  extent : Extent

structure DefinitionPhrase where
  name : List Char
  parameters : List Parameter
  body : Block
  extent : Extent

/-- What a definition file holds at its top level. -/
inductive Item where
  | workers (names : List (List Char))
  | definition (phrase : DefinitionPhrase)

end Workflow.Surface
