import Workflow.Source.Span

/-!
The lines of a text, each with the byte offset at which it starts, and the line and column of a
byte offset. Lines end at a newline only; columns count characters.
-/

namespace Workflow

structure Line where
  start : Nat
  chars : List Char

/-- The lines of a text in order; the newline belongs to the line it ends. -/
abbrev Lines := List Line

namespace Lines

/-- Cuts the rest of a text at offset `pos` into lines. -/
def cut (pos : Nat) : List Char → Lines
  | [] => [⟨pos, []⟩]
  | c :: cs =>
    let next := pos + c.utf8Size
    if c = '\n' then ⟨pos, [c]⟩ :: cut next cs
    else
      match cut next cs with
      | [] => [⟨pos, [c]⟩]
      | line :: rest => ⟨pos, c :: line.chars⟩ :: rest

def ofText (text : List Char) : Lines := cut 0 text

/-- The number of characters in the first `bytes` bytes, if these end between characters. -/
def charsIn (bytes : Nat) : List Char → Option Nat
  | [] => if bytes = 0 then some 0 else none
  | c :: cs =>
    if bytes = 0 then some 0
    else if c.utf8Size ≤ bytes then (charsIn (bytes - c.utf8Size) cs).map (· + 1)
    else none

/-- The line and column of an offset, both from 0: the last line that starts at or before the
offset, and the characters of it that lie before the offset. -/
def lineCol (lines : Lines) (offset : Nat) : Nat × Nat :=
  let before := lines.takeWhile fun line => line.start ≤ offset
  match before.getLast? with
  | none => (0, 0)
  | some line => (before.length - 1, (charsIn (offset - line.start) line.chars).getD 0)

def span (lines : Lines) (start stop : Nat) : Span :=
  let (startLine, startCol) := lines.lineCol start
  let (stopLine, stopCol) := lines.lineCol stop
  ⟨start, stop, startLine, startCol, stopLine, stopCol⟩

end Lines

end Workflow
