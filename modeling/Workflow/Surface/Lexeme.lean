/-!
The words of the language. Each function takes one word off the front of a text and gives the
word and the rest; none of them admits blanks inside a word.
-/

namespace Workflow.Surface

abbrev Lexeme := List Char → Option (List Char × List Char)

def isBlank (c : Char) : Bool := c = ' ' || c = '\t' || c = '\r' || c = '\n'

def isIdentStart (c : Char) : Bool := c.isAlpha || c = '_'

def isIdentChar (c : Char) : Bool := c.isAlphanum || c = '_'

/-- Drops blanks, and comments from `#` up to the end of the line. -/
def skipBlanks : List Char → List Char
  | [] => []
  | c :: cs =>
    if isBlank c then skipBlanks cs
    else if c = '#' then skipComment cs
    else c :: cs
where
  skipComment : List Char → List Char
    | [] => []
    | c :: cs => if c = '\n' then skipBlanks cs else skipComment cs

def keywords : List String :=
  ["superworker", "workers", "batch", "do", "end", "true", "false", "nil"]

/-- The longest run of characters of a class. -/
def run (p : Char → Bool) (cs : List Char) : List Char × List Char :=
  (cs.takeWhile p, cs.dropWhile p)

def isKeyword (w : List Char) : Bool := keywords.any fun k => k.toList == w

/-- The given word, not followed by a character that would make it longer. -/
def keyword (w : String) : Lexeme := fun cs =>
  let (text, rest) := run isIdentChar cs
  if text = w.toList then some (text, rest) else none

def boolean : Lexeme := fun cs => (keyword "true" cs).or (keyword "false" cs)

/-- A letter or underscore, then letters, digits and underscores, and no keyword. -/
def identifier : Lexeme
  | [] => none
  | c :: cs =>
    let (text, rest) := run isIdentChar (c :: cs)
    if isIdentStart c && ! isKeyword text then some (text, rest) else none

/-- Further segments of a name, each behind `::`; `fuel` bounds their number. -/
def segments : (fuel : Nat) → List Char → List Char × List Char
  | 0, cs => ([], cs)
  | fuel + 1, cs =>
    match cs with
    | ':' :: ':' :: after =>
      match identifier after with
      | some (text, rest) =>
        let (more, rest) := segments fuel rest
        (':' :: ':' :: text ++ more, rest)
      | none => ([], cs)
    | _ => ([], cs)

/-- Identifiers joined by `::`. -/
def name : Lexeme := fun cs =>
  match identifier cs with
  | some (text, rest) =>
    let (more, rest) := segments rest.length rest
    some (text ++ more, rest)
  | none => none

/-- The inside of a string up to its closing quote; a backslash takes the next character along. -/
def quoted : List Char → Option (List Char × List Char)
  | [] => none
  | '"' :: cs => some ([], '"' :: cs)
  | '\\' :: c :: cs => (quoted cs).map fun (text, rest) => ('\\' :: c :: text, rest)
  | '\\' :: [] => none
  | c :: cs => (quoted cs).map fun (text, rest) => (c :: text, rest)

/-- A string with its quotes. -/
def string : Lexeme
  | '"' :: cs =>
    match quoted cs with
    | some (text, '"' :: rest) => some ('"' :: text ++ ['"'], rest)
    | _ => none
  | _ => none

/-- One digit or more. -/
def digits : Lexeme := fun cs =>
  let (text, rest) := run Char.isDigit cs
  if text.isEmpty then none else some (text, rest)

/-- An optional part that may stand where it does not match. -/
def optional (l : Lexeme) (cs : List Char) : List Char × List Char := (l cs).getD ([], cs)

def fraction : Lexeme
  | '.' :: cs => (digits cs).map fun (text, rest) => ('.' :: text, rest)
  | _ => none

def sign : Lexeme
  | '+' :: cs => some (['+'], cs)
  | '-' :: cs => some (['-'], cs)
  | _ => none

def exponent : Lexeme
  | [] => none
  | c :: cs =>
    if c = 'e' ∨ c = 'E' then
      let (mark, rest) := optional sign cs
      (digits rest).map fun (text, rest) => (c :: mark ++ text, rest)
    else none

/-- Digits with an optional minus, fraction and exponent. -/
def number : Lexeme := fun cs =>
  let (minus, body) :=
    match cs with
    | '-' :: body => (['-'], body)
    | _ => ([], cs)
  match digits body with
  | none => none
  | some (whole, rest) =>
    let (part, rest) := optional fraction rest
    let (scale, rest) := optional exponent rest
    some (minus ++ whole ++ part ++ scale, rest)

/-- An identifier and a colon that no second colon follows; the word is the identifier. -/
def key : Lexeme := fun cs =>
  match identifier cs with
  | some (_, ':' :: ':' :: _) => none
  | some (text, ':' :: rest) => some (text, rest)
  | _ => none

end Workflow.Surface
