import Workflow.Number.Hexadecimal
import Workflow.Pattern.Basic
import Workflow.Text.Alphanumeric
import Workflow.Text.Space

/-!
Reading patterns. They come from between braces and so hold no closing brace: an opening one
stands for itself in brackets and behind a backslash, and nowhere else.
-/

namespace Workflow.Pattern

/-- How far a pattern is read. In a verbose pattern spaces and comments mean nothing. -/
structure Cursor where
  rest : List Char
  isVerbose : Bool
  /-- The names of the groups so far. -/
  names : List (List Char)

namespace Cursor

def start (text : String) : Cursor := ⟨text.toList, false, []⟩

/-- Behind spaces and comments, which reach to the end of a line. -/
def behindSpace (isComment : Bool) : List Char → List Char
  | [] => []
  | c :: cs =>
    if isComment then behindSpace (c ≠ '\n') cs
    else if c = '#' then behindSpace true cs
    else if Text.isSpace c then behindSpace false cs
    else c :: cs

def skip (c : Cursor) : Cursor :=
  if c.isVerbose then { c with rest := behindSpace false c.rest } else c

/-- The character that decides what a hyphen in brackets is. A comment hides nothing but its sign
here. -/
def peek (c : Cursor) : Option Char :=
  if c.isVerbose then
    match Text.skipSpace c.rest with
    | [] => c.rest.head?
    | '#' :: rest => (Text.skipSpace rest).head? <|> c.rest.head?
    | x :: _ => some x
  else c.rest.head?

end Cursor

/-! ### Groups -/

def isName : List Char → Bool
  | [] => false
  | first :: others =>
    (first = '_' || Text.isAlphabetic first) &&
      others.all fun c => c ∈ ['_', '.', '[', ']'] || Text.isAlphanumeric c

/-- Reads the name of a group up to its closing bracket; each name is given once. -/
def groupName (c : Cursor) : Option Cursor :=
  let name := c.rest.takeWhile (· ≠ '>')
  match c.rest.dropWhile (· ≠ '>') with
  | '>' :: rest =>
    if isName name ∧ name ∉ c.names then some { c with rest, names := name :: c.names } else none
  | _ => none

def flagLetters : List Char := ['i', 'm', 's', 'U', 'u', 'R', 'x']

def flagLetter? (letters : List Char) (letter : Char) : Option Bool :=
  if letter ∈ letters.takeWhile (· ≠ '-') then some true
  else if letter ∈ letters then some false
  else none

/-- Letters set flags, behind a hyphen they unset them. None comes twice, and a hyphen has a letter
behind it. -/
def flags? (letters : List Char) : Option PatternFlags :=
  if letters.all (fun c => c ∈ flagLetters || c = '-') && decide letters.Nodup &&
      letters.getLast? ≠ some '-' then
    some ⟨flagLetter? letters 'i', flagLetter? letters 'u', flagLetter? letters 'x'⟩
  else none

/-- Flags stand by themselves in parentheses, or have a colon and a pattern behind them. -/
inductive Opening where
  | flags (f : PatternFlags)
  | group (f : PatternFlags)

/-- Reads what is behind an opening parenthesis; nothing can be asked about what is around a
match. -/
def opening (c : Cursor) : Option (Opening × Cursor) :=
  let c := c.skip
  match c.rest with
  | '?' :: 'P' :: '<' :: rest => (groupName { c with rest }).map (.group .none, ·)
  | '?' :: '<' :: rest => (groupName { c with rest }).map (.group .none, ·)
  | '?' :: rest =>
    let letters := rest.takeWhile fun x => x ≠ ':' && x ≠ ')'
    match flags? letters, rest.drop letters.length with
    | some f, ':' :: rest => some (.group f, { c with rest })
    | some f, ')' :: rest => if letters.isEmpty then none else some (.flags f, { c with rest })
    | _, _ => none
  | _ => some (.group .none, c)

/-! ### Escapes -/

/-- Reads the character with a code of `width` hexadecimal digits; `n` is the code so far. -/
def coded (isByte : Bool) (n : Nat) : (width : Nat) → Cursor → Option (Pattern × Cursor)
  | 0, c => if n.isValidChar then some (.single ⟨Char.ofNat n, isByte⟩, c) else none
  | width + 1, c =>
    let c := c.skip
    match c.rest with
    | [] => none
    | d :: rest => do coded isByte (16 * n + (← Hexadecimal.digit? d)) width { c with rest }

/-- What an escaped letter stands for, or one of the brackets that are no signs. -/
def escapedLetter? (letter : Char) : Option Pattern :=
  if letter ∈ ['d', 's', 'w'] then some (.shorthand false)
  else if letter ∈ ['D', 'S', 'W'] then some (.shorthand true)
  else if letter ∈ ['A', 'z'] then some .anchor
  else if letter ∈ ['b', 'B', '<', '>'] then some .wordEdge
  else
    let control := [('a', '\x07'), ('f', '\x0c'), ('t', '\t'), ('n', '\n'), ('r', '\r'),
      ('v', '\x0b')]
    (control.lookup letter).map fun c => .single ⟨c, false⟩

/-- Signs stand for themselves when they are escaped. -/
def isSign (c : Char) : Bool := c.toNat < 128 && ! c.isAlphanum && c ≠ '<' && c ≠ '>'

/-- Reads what is behind a backslash. No properties of characters are known. -/
def escape (c : Cursor) : Option (Pattern × Cursor) :=
  match c.rest with
  | [] => none
  | x :: rest =>
    let c := { c with rest }
    if x = 'x' then coded true 0 2 c
    else if x = 'u' then coded false 0 4 c
    else if x = 'U' then coded false 0 8 c
    else if isSign x then some (.single ⟨x, false⟩, c)
    else (escapedLetter? x).map (·, c)

/-! ### Sets -/

def setNames : List String :=
  ["alnum", "alpha", "ascii", "blank", "cntrl", "digit", "graph", "lower", "print", "punct",
    "space", "upper", "word", "xdigit"]

/-- Whether a named set is negated, and the rest behind it; its opening bracket is read. -/
def namedSet? : List Char → Option (Bool × List Char)
  | ':' :: cs =>
    let isNegated := cs.head? = some '^'
    let cs := if isNegated then cs.drop 1 else cs
    let name := cs.takeWhile (· ≠ ':')
    match cs.dropWhile (· ≠ ':') with
    | ':' :: ']' :: rest => if String.ofList name ∈ setNames then some (isNegated, rest) else none
    | _ => none
  | _ => none

/-- Hyphens at the start of a set. -/
def hyphens (read : List Charset) : (fuel : Nat) → Cursor → List Charset × Cursor
  | 0, c => (read, c)
  | fuel + 1, c =>
    let c := c.skip
    match c.rest with
    | '-' :: rest => hyphens (.single ⟨'-', false⟩ :: read) fuel { c with rest }
    | _ => (read, c)

/-- Reads the start of a set behind its bracket: whether it is negated, and what stands for itself
only here, hyphens or else a closing bracket. -/
def setStart (c : Cursor) : Bool × List Charset × Cursor :=
  let c := c.skip
  let isNegated := c.rest.head? = some '^'
  let c := if isNegated then { c with rest := c.rest.drop 1 } else c
  match hyphens [] c.rest.length c with
  | ([], c) =>
    match c.rest with
    | ']' :: rest => (isNegated, [.single ⟨']', false⟩], { c with rest })
    | _ => (isNegated, [], c)
  | (read, c) => (isNegated, read, c)

/-- Reads a character of a set, or an escape. -/
def setItem (c : Cursor) : Option (Pattern × Cursor) :=
  match c.rest with
  | [] => none
  | '\\' :: rest => escape { c with rest }
  | x :: rest => some (.single ⟨x, false⟩, { c with rest })

/-- The set that a character or an escape stands for. -/
def charset? : Pattern → Option Charset
  | single c => some (.single c)
  | shorthand isNegated => some (.shorthand isNegated)
  | _ => none

/-- A range has its first character not behind its last one. -/
def range? : (first last : Pattern) → Option Charset
  | .single first, .single last =>
    if first.char ≤ last.char then some (.range first last) else none
  | _, _ => none

/-- Reads an item of a set or a range of them. -/
def setRange (c : Cursor) : Option (Charset × Cursor) := do
  let (first, c) ← setItem c
  let c := c.skip
  match c.rest with
  | '-' :: rest =>
    let behind := { c with rest }
    if behind.peek = some ']' ∨ behind.peek = some '-' then some (← charset? first, c)
    else
      let (last, c) ← setItem behind.skip
      some (← range? first last, c)
  | _ => some (← charset? first, c)

/-- The set in front of a sign between two sets, if any, with the one behind it. -/
def combine (left : Option Charset) (right : Charset) : Charset :=
  match left with
  | none => right
  | some left => .combined left right

/-- Reads a set up to its closing bracket; `left` is what stands in front of the last sign between
two sets, and `read` holds the items behind it, last one first. Each call takes a character, so the
length of the text bounds their number. -/
def setBody (left : Option Charset) (read : List Charset) :
    (fuel : Nat) → Cursor → Option (Charset × Cursor)
  | 0, _ => none
  | fuel + 1, c =>
    let c := c.skip
    let right := Charset.ofList read.reverse
    match c.rest with
    | [] => none
    | ']' :: rest => some (combine left right, { c with rest })
    | '[' :: rest =>
      match namedSet? rest with
      | some (isNegated, rest) => setBody left (.named isNegated :: read) fuel { c with rest }
      | none => do
        let (isNegated, first, c) := setStart { c with rest }
        let (inner, c) ← setBody none first fuel c
        setBody left (.bracketed isNegated inner :: read) fuel c
    | '&' :: '&' :: rest => setBody (some (combine left right)) [] fuel { c with rest }
    | '-' :: '-' :: rest => setBody (some (combine left right)) [] fuel { c with rest }
    | '~' :: '~' :: rest => setBody (some (combine left right)) [] fuel { c with rest }
    | _ => do
      let (s, c) ← setRange c
      setBody left (s :: read) fuel c

/-! ### Patterns -/

/-- Reads a character that is no sign for more, or an escape. -/
def atom (c : Cursor) : Option (Pattern × Cursor) :=
  match c.rest with
  | [] => none
  | '{' :: _ => none
  | '\\' :: rest => escape { c with rest }
  | '.' :: rest => some (.any, { c with rest })
  | '^' :: rest => some (.anchor, { c with rest })
  | '$' :: rest => some (.anchor, { c with rest })
  | x :: rest => some (.single ⟨x, false⟩, { c with rest })

/-- The rest behind the sign for a repetition that is to be short. -/
def behindLazy : List Char → List Char
  | '?' :: rest => rest
  | rest => rest

/-- Reads choices up to a closing parenthesis or the end; `choices` holds those that are read and
`read` the parts of the current one, the last one first. Each call takes a character, so the length
of the text bounds their number. -/
def body (choices read : List Pattern) : (fuel : Nat) → Cursor → Option (Pattern × Cursor)
  | 0, _ => none
  | fuel + 1, c =>
    let c := c.skip
    let current := ofList read.reverse
    match c.rest with
    | [] => some (ofChoices (current :: choices).reverse, c)
    | ')' :: _ => some (ofChoices (current :: choices).reverse, c)
    | '|' :: rest => body (current :: choices) [] fuel { c with rest }
    | '(' :: rest => do
      match ← opening { c with rest } with
      | (.flags f, behind) =>
        let isVerbose := f.isVerbose.getD c.isVerbose
        body choices (.flags f :: read) fuel { behind with isVerbose }
      | (.group f, behind) =>
        let isVerbose := f.isVerbose.getD c.isVerbose
        let (inner, behind) ← body [] [] fuel { behind with isVerbose }
        match behind.rest with
        | ')' :: rest =>
          body choices (.group f inner :: read) fuel ⟨rest, c.isVerbose, behind.names⟩
        | _ => none
    | '[' :: rest => do
      let (isNegated, first, behind) := setStart { c with rest }
      let (inner, behind) ← setBody none first (rest.length + 1) behind
      body choices (.set isNegated inner :: read) fuel behind
    | x :: rest =>
      if x = '*' ∨ x = '+' ∨ x = '?' then
        match read with
        | p :: read =>
          if p.isRepeatable then
            body choices (.repeated p :: read) fuel { c with rest := behindLazy rest }
          else none
        | [] => none
      else do
        let (p, c) ← atom c
        body choices (p :: read) fuel c

/-- The pattern that a text spells, `none` when it spells none. -/
def parse? (text : String) : Option Pattern :=
  match body [] [] (text.length + 1) (Cursor.start text) with
  | some (p, c) => if c.rest.isEmpty then some p else none
  | none => none

end Workflow.Pattern
