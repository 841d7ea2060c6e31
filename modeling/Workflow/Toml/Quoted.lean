import Workflow.Number.Hexadecimal
import Workflow.Toml.Reader

/-!
Strings of TOML: between double quotes a backslash escapes what follows it, between single quotes
nothing is escaped; three quotes of either kind enclose text with line ends in it.
-/

namespace Workflow.Toml

/-- The character with a code of `width` hexadecimal digits. -/
def coded (width : Nat) : Reader Char := fun cs => do
  if cs.length < width then none
  else
    let n ← Hexadecimal.value? (cs.take width)
    if n.isValidChar then some (Char.ofNat n, cs.drop width) else none

/-- What follows a backslash. -/
def escaped : Reader Char
  | 'b' :: rest => some ('\x08', rest)
  | 't' :: rest => some ('\t', rest)
  | 'n' :: rest => some ('\n', rest)
  | 'f' :: rest => some ('\x0c', rest)
  | 'r' :: rest => some ('\r', rest)
  | '"' :: rest => some ('"', rest)
  | '\\' :: rest => some ('\\', rest)
  | 'u' :: rest => coded 4 rest
  | 'U' :: rest => coded 8 rest
  | _ => none

/-- What quotes enclose, by the kind of quote. -/
inductive Quote where
  /-- Double quotes: a backslash escapes. -/
  | basic
  /-- Single quotes: nothing is escaped. -/
  | literal
deriving DecidableEq

def Quote.mark : Quote → Char
  | basic => '"'
  | literal => '\''

/-- A string on one line behind its opening quote; `read` holds its characters, last one first. -/
def shortBody (q : Quote) (read : List Char) : (fuel : Nat) → Reader String
  | 0, _ => none
  | fuel + 1, cs =>
    match cs with
    | [] => none
    | c :: rest =>
      if c = q.mark then some (String.ofList read.reverse, rest)
      else if c = '\\' ∧ q = .basic then
        match escaped rest with
        | some (c, rest) => shortBody q (c :: read) fuel rest
        | none => none
      else if isControl c then none
      else shortBody q (c :: read) fuel rest

/-- The rest behind a line that a backslash joins to the next one that is not empty. -/
def joined? (cs : List Char) : Option (List Char) := (newline? (skipBlanks cs)).map skipEmpty

/-- A string over several lines behind its opening quotes. One or two quotes are text; of more,
three close the string, and up to two in front of them are text. -/
def longBody (q : Quote) (read : List Char) : (fuel : Nat) → Reader String
  | 0, _ => none
  | fuel + 1, cs =>
    match cs with
    | [] => none
    | c :: rest =>
      if c = q.mark then
        let n := (cs.takeWhile (· = q.mark)).length
        if n < 3 then longBody q (q.mark :: read) fuel rest
        else
          let inner := min (n - 3) 2
          some (String.ofList (read.reverse ++ List.replicate inner q.mark), cs.drop (inner + 3))
      else if c = '\\' ∧ q = .basic then
        match joined? rest, escaped rest with
        | some rest, _ => longBody q read fuel rest
        | none, some (c, rest) => longBody q (c :: read) fuel rest
        | none, none => none
      else
        match newline? cs with
        | some rest => longBody q ('\n' :: read) fuel rest
        | none => if isControl c then none else longBody q (c :: read) fuel rest

/-- A string behind its first quote; a line end right behind three quotes does not count. -/
def enclosed (q : Quote) (cs : List Char) : Option (String × List Char) :=
  match Text.after? [q.mark, q.mark] cs with
  | some rest =>
    let rest := (newline? rest).getD rest
    longBody q [] (rest.length + 1) rest
  | none => shortBody q [] (cs.length + 1) cs

end Workflow.Toml
