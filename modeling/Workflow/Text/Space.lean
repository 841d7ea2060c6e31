/-!
Spaces of all scripts: the characters with the property White_Space.
-/

namespace Workflow.Text

/-- The ranges of spaces, in ascending order. -/
def spaceRanges : List (Nat × Nat) :=
  [(0x9, 0xd), (0x20, 0x20), (0x85, 0x85), (0xa0, 0xa0), (0x1680, 0x1680), (0x2000, 0x200a),
    (0x2028, 0x2029), (0x202f, 0x202f), (0x205f, 0x205f), (0x3000, 0x3000)]

def isSpace (c : Char) : Bool :=
  spaceRanges.any fun (low, high) => low ≤ c.toNat && c.toNat ≤ high

def skipSpace (cs : List Char) : List Char := cs.dropWhile isSpace

/-- Without the spaces at either end. -/
def trimmed (cs : List Char) : List Char := (skipSpace (skipSpace cs).reverse).reverse

theorem isSpace_of_isWhitespace {c : Char} (h : c.isWhitespace) : isSpace c := by
  simp only [Char.isWhitespace, Bool.or_eq_true, decide_eq_true_eq] at h
  rcases h with ((rfl | rfl) | rfl) | rfl <;> decide

end Workflow.Text
