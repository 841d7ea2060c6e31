import Workflow.Environment.Basic
import Workflow.Text.Alphanumeric
import Workflow.Text.OrderMark
import Workflow.Text.Space

/-!
Files of variables, one `KEY=VALUE` after another. Quotes carry a value on to the next line. Behind
a dollar sign stands the name of a variable, whose value is put in its place; those in front in the
file count too.
-/

namespace Workflow.Environment

/-! ### Lines

A line goes on on the next one while it leaves something open. The line end itself closes a space
or an escape, so these are open only at the end of a text that lacks it. -/

/-- What the characters of a line so far leave open, wherever in the line they stand. -/
inductive Open where
  | nothing
  /-- A space: a comment may follow. -/
  | space
  | escape
  | double
  | doubleEscape
  | single
  | singleEscape
deriving DecidableEq

namespace Open

/-- What is open behind a character that is in no quotes. -/
def behind (c : Char) : Open :=
  if c = '\\' then escape else if c = '"' then double else if c = '\'' then single else nothing

def step (o : Open) (c : Char) : Open :=
  match o with
  | nothing => if Text.isSpace c ∧ c ≠ '\n' ∧ c ≠ '\r' then space else behind c
  | space => behind c
  | escape => nothing
  | double => if c = '\\' then doubleEscape else if c = '"' then nothing else double
  | doubleEscape => double
  | single => if c = '\\' then singleEscape else if c = '\'' then nothing else single
  | singleEscape => single

/-- Goes through a line up to a comment, which leaves nothing open. -/
def scan (o : Open) : List Char → List Char × Open
  | [] => ([], o)
  | c :: cs =>
    if o = space ∧ c = '#' then ([], nothing)
    else
      let (kept, o) := scan (o.step c) cs
      (c :: kept, o)

end Open

/-- The lines of a text, each with its line end. -/
def physicalLines (current : List Char) : List Char → List (List Char)
  | [] => if current.isEmpty then [] else [current.reverse]
  | c :: cs =>
    if c = '\n' then (c :: current).reverse :: physicalLines [] cs
    else physicalLines (c :: current) cs

/-- Joins lines to those that they leave something open for; `none` stands for a text that ends
with something open. A line that is a comment leaves nothing open. -/
def logicalLines (current : List Char) (o : Open) : List (List Char) → List (Option (List Char))
  | [] => if o = .nothing then [] else [none]
  | l :: rest =>
    if (Text.skipSpace (current ++ l)).head? = some '#' then
      some [] :: logicalLines [] .nothing rest
    else
      let (kept, o) := o.scan l
      if o = .nothing then some (current ++ kept) :: logicalLines [] .nothing rest
      else logicalLines (current ++ kept) o rest

/-! ### Values -/

/-- How the next character of a value is read. -/
inductive Mode where
  | bare
  | single
  | double
  /-- The value is over; only blanks and a comment may follow. -/
  | closed
  /-- In the name of a variable, between double quotes or not and between braces or not; `read`
  holds its characters, last one first. -/
  | name (isQuoted isBraced : Bool) (read : List Char)
deriving DecidableEq

/-- The mode of what stands around a name. -/
def Mode.around (isQuoted : Bool) : Mode := if isQuoted then double else bare

/-- What a backslash and a character stand for. -/
def escaped (c : Char) : Option Char :=
  if c = 'n' then some '\n'
  else if c = '\\' ∨ c = '\'' ∨ c = '"' ∨ c = '$' ∨ c = ' ' then some c
  else none

/-- The value of a variable by the characters of its name, last one first. -/
def substitute (vars : Environment) (read : List Char) : List Char :=
  (vars.valueOf (String.ofList read.reverse)).toList

/-- How a value may end. -/
def atEnd (vars : Environment) : Mode → Option (List Char)
  | .bare => some []
  | .single => none
  | .double => none
  | .closed => some []
  | .name isQuoted isBraced read =>
    if isQuoted || isBraced then none else some (substitute vars read)

/-- Reads a value, quotes taken off and names replaced. The character that ends a name without
braces is text, also where it is a quote. -/
def value (vars : Environment) (m : Mode) : List Char → Option (List Char)
  | [] => atEnd vars m
  | c :: rest =>
    match m with
    | .single =>
      if c = '\'' then value vars .bare rest else (value vars .single rest).map (c :: ·)
    | .closed =>
      if c = '#' then some []
      else if c = ' ' ∨ c = '\t' then value vars .closed rest
      else none
    | .name isQuoted isBraced read =>
      if isBraced then
        if c = '\x7d' then
          (value vars (Mode.around isQuoted) rest).map (substitute vars read ++ ·)
        else value vars (.name isQuoted true (c :: read)) rest
      else if Text.isAlphanumeric c then value vars (.name isQuoted false (c :: read)) rest
      else if c = '\x7b' ∧ read.isEmpty then value vars (.name isQuoted true []) rest
      else if c = '$' then
        (value vars (.name isQuoted false []) rest).map (substitute vars read ++ ·)
      else (value vars (Mode.around isQuoted) rest).map (substitute vars read ++ c :: ·)
    | .bare =>
      if c = '\\' then
        match rest with
        | [] => some []
        | d :: rest => do some ((← escaped d) :: (← value vars .bare rest))
      else if c = '$' then value vars (.name false false []) rest
      else if c = '\'' then value vars .single rest
      else if c = '"' then value vars .double rest
      else if c = ' ' ∨ c = '\t' then value vars .closed rest
      else (value vars .bare rest).map (c :: ·)
    | .double =>
      if c = '\\' then
        match rest with
        | [] => none
        | d :: rest => do some ((← escaped d) :: (← value vars .double rest))
      else if c = '$' then value vars (.name true false []) rest
      else if c = '"' then value vars .bare rest
      else (value vars .double rest).map (c :: ·)

/-! ### Variables -/

def isKeyStart (c : Char) : Bool := c.isAlpha || c = '_'

def isKeyChar (c : Char) : Bool := c.isAlphanum || c = '_' || c = '.'

/-- A key, and the rest behind the spaces that follow it. -/
def key? (cs : List Char) : Option (String × List Char) :=
  if cs.head?.any isKeyStart then
    some (String.ofList (cs.takeWhile isKeyChar), Text.skipSpace (cs.dropWhile isKeyChar))
  else none

/-- What stands behind a key: a sign of equality and a value. -/
def assigned? (vars : Environment) (key : String) : List Char → Option (String × String)
  | '=' :: rest =>
    match Text.skipSpace rest with
    | [] => some (key, "")
    | '#' :: _ => some (key, "")
    | rest => (value vars .bare rest).map fun cs => (key, String.ofList cs)
  | _ => none

/-- A key with its value; the word `export` may stand in front. -/
def pairing? (vars : Environment) (cs : List Char) : Option (String × String) := do
  let (key, rest) ← key? cs
  if key = "export" ∧ rest.head? ≠ some '=' then
    let (key, rest) ← key? rest
    assigned? vars key rest
  else assigned? vars key rest

/-- Sets the variables of lines one after another, up to the first line that cannot be read. Of
two values of a variable the first counts. -/
def extendByLines (vars : Environment) : List (Option (List Char)) → Environment
  | [] => vars
  | none :: _ => vars
  | some l :: rest =>
    match Text.trimmed l with
    | [] => extendByLines vars rest
    | '#' :: _ => extendByLines vars rest
    | cs =>
      match pairing? vars cs with
      | some (key, value) => extendByLines (vars.setNew key value) rest
      | none => vars

/-- Sets the variables of a file that are not yet set. -/
def extendByFile (vars : Environment) (text : String) : Environment :=
  extendByLines vars (logicalLines [] .nothing (physicalLines [] (Text.skipOrderMark text.toList)))

end Workflow.Environment
