/-!
A span is a stretch of a source text: the byte offsets of its two ends, each with its line and
column. The widest-cover merge takes either end from whichever span reaches further.
-/

namespace Workflow

structure Span where
  start : Nat
  stop : Nat
  startLine : Nat
  startCol : Nat
  stopLine : Nat
  stopCol : Nat
deriving DecidableEq

namespace Span

/-- The span of what was never written down in a text. -/
def zero : Span := ⟨0, 0, 0, 0, 0, 0⟩

instance : Inhabited Span := ⟨zero⟩

/-- Covers both spans; where two ends meet, the line and column are the first span's. -/
def merge (s t : Span) : Span where
  start := min s.start t.start
  stop := max s.stop t.stop
  startLine := if s.start ≤ t.start then s.startLine else t.startLine
  startCol := if s.start ≤ t.start then s.startCol else t.startCol
  stopLine := if t.stop ≤ s.stop then s.stopLine else t.stopLine
  stopCol := if t.stop ≤ s.stop then s.stopCol else t.stopCol

theorem merge_start (s t : Span) : (s.merge t).start = min s.start t.start := rfl

theorem merge_stop (s t : Span) : (s.merge t).stop = max s.stop t.stop := rfl

end Span

end Workflow
