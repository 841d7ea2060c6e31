/-!
Numbers in hexadecimal digits, in letters of either case.
-/

namespace Workflow.Hexadecimal

def digit? (c : Char) : Option Nat :=
  if c.isDigit then some (c.toNat - '0'.toNat)
  else if 'a' ≤ c ∧ c ≤ 'f' then some (c.toNat - 'a'.toNat + 10)
  else if 'A' ≤ c ∧ c ≤ 'F' then some (c.toNat - 'A'.toNat + 10)
  else none

/-- The number that digits stand for, zero if there are none. -/
def value? (ds : List Char) : Option Nat :=
  ds.foldlM (fun n d => (digit? d).map (16 * n + ·)) 0

end Workflow.Hexadecimal
