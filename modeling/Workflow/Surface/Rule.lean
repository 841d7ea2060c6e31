import Workflow.Surface.Lexeme
import Workflow.Json.Scalar

/-!
Grammar rules. A rule tries to match at a cursor; its outcome is the match, if there is one, and
the furthest offset at which a word or a named part was refused on the way. Choices take the
first rule that matches and repetitions take all they can.
-/

namespace Workflow.Surface

structure Cursor where
  offset : Nat
  rest : List Char

/-- The cursor at a later rest of the same text. -/
def Cursor.moveTo (c : Cursor) (rest : List Char) : Cursor :=
  ⟨c.offset + Text.utf8Length (c.rest.take (c.rest.length - rest.length)), rest⟩

structure Trial (α : Type) where
  reached : Nat
  found : Option (α × Cursor)

abbrev Rule (α : Type) := Cursor → Trial α

namespace Rule

variable {α β : Type}

def succeed (a : α) : Rule α := fun c => ⟨0, some (a, c)⟩

/-- Does not match, and tells that it was tried here. -/
def refuse : Rule α := fun c => ⟨c.offset, none⟩

/-- Does not match, and leaves no trace. -/
def fail : Rule α := fun _ => ⟨0, none⟩

def andThen (p : Rule α) (f : α → Rule β) : Rule β := fun c =>
  let t := p c
  match t.found with
  | none => ⟨t.reached, none⟩
  | some (a, c') =>
    let u := f a c'
    ⟨max t.reached u.reached, u.found⟩

instance : Monad Rule where
  pure := succeed
  bind := andThen

def orElse (p q : Rule α) : Rule α := fun c =>
  let t := p c
  match t.found with
  | some _ => t
  | none =>
    let u := q c
    ⟨max t.reached u.reached, u.found⟩

/-- A rule that tells when it does not match. -/
def named (p : Rule α) : Rule α := fun c =>
  let t := p c
  match t.found with
  | some _ => t
  | none => ⟨max t.reached c.offset, none⟩

def optional (p : Rule α) : Rule (Option α) :=
  orElse (andThen p fun a => succeed (some a)) (succeed none)

/-- Moves past blanks and comments. -/
def skip : Rule Unit := fun c => ⟨0, some ((), c.moveTo (skipBlanks c.rest))⟩

/-- A character on its own. -/
def char (x : Char) : Rule Unit := fun c =>
  match c.rest with
  | y :: rest => if y = x then ⟨0, some ((), ⟨c.offset + x.utf8Size, rest⟩)⟩ else ⟨0, none⟩
  | [] => ⟨0, none⟩

/-- Matches what comes next without taking it. -/
def offset : Rule Nat := fun c => ⟨0, some (c.offset, c)⟩

/-- A word. -/
def lexeme (l : Lexeme) : Rule (List Char) := fun c =>
  match l c.rest with
  | some (text, rest) => ⟨0, some (text, c.moveTo rest)⟩
  | none => ⟨c.offset, none⟩

/-- As many matches in a row as there are, blanks before each of them; the blanks behind the last
one are left. -/
def star (p : Rule α) : Rule (List α) := fun c =>
  let t := andThen skip (fun _ => p) c
  match t.found with
  | none => ⟨t.reached, some ([], c)⟩
  | some (a, c') =>
    if c'.rest.length < c.rest.length then
      let u := star p c'
      ⟨max t.reached u.reached, u.found.map fun (as, c) => (a :: as, c)⟩
    else ⟨t.reached, some ([a], c')⟩
termination_by c => c.rest.length

/-- One match or more with commas between. -/
def commaSeparated (p : Rule α) : Rule (List α) := do
  let first ← p
  skip
  let more ← star (do char ','; skip; p)
  pure (first :: more)

end Rule

end Workflow.Surface
