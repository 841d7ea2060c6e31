import Workflow.Text.Front

/-!
Readers of TOML take something off the front of a text. Here are those of what stands between
the words: blanks, line ends and comments.
-/

namespace Workflow.Toml

abbrev Reader (α : Type) := List Char → Option (α × List Char)

def isBlank (c : Char) : Bool := c = ' ' || c = '\t'

def skipBlanks (cs : List Char) : List Char := cs.dropWhile isBlank

/-- Control characters stand in no comment and no string, the tab apart. -/
def isControl (c : Char) : Bool := (c < ' ' && c ≠ '\t') || c = '\x7f'

/-- The rest behind a line end. -/
def newline? : List Char → Option (List Char)
  | '\n' :: rest => some rest
  | '\r' :: '\n' :: rest => some rest
  | _ => none

def skipComment : List Char → List Char
  | '#' :: rest => rest.dropWhile fun c => ! isControl c
  | cs => cs

/-- The rest behind blanks, a comment and the end of the line or of the text. -/
def endLine? (cs : List Char) : Option (List Char) :=
  match skipComment (skipBlanks cs) with
  | [] => some []
  | cs => newline? cs

/-- Skips blanks, comments and line ends; each line end takes a character, so the length of the
text bounds their number. -/
def skipLinesWithin : (fuel : Nat) → List Char → List Char
  | 0, cs => cs
  | fuel + 1, cs =>
    let cs := skipComment (skipBlanks cs)
    match newline? cs with
    | some rest => skipLinesWithin fuel rest
    | none => cs

def skipLines (cs : List Char) : List Char := skipLinesWithin (cs.length + 1) cs

/-- Skips blanks and line ends. -/
def skipEmpty : List Char → List Char
  | '\n' :: rest => skipEmpty rest
  | '\r' :: '\n' :: rest => skipEmpty rest
  | c :: rest => if isBlank c then skipEmpty rest else c :: rest
  | [] => []

end Workflow.Toml
