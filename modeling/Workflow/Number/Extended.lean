import Workflow.Number.Shortest

/-!
Numbers of the binary64 format, with the infinities and with what is no number. They are written
without exponent and counted by rounding.
-/

namespace Workflow

inductive Extended where
  | finite (x : Double)
  | infinite (negative : Bool)
  /-- The result of an operation that has none. -/
  | undefined
deriving DecidableEq

namespace Extended

/-- The number nearest to `m * 10 ^ e`; one that is too great is infinite. -/
def ofDecimal (negative : Bool) (m : Nat) (e : Int) : Extended :=
  match (Double.nearestDecimal? m e).bind (Double.ofRank? negative) with
  | some x => finite x
  | none => infinite negative

def text : Extended → String
  | finite x => String.ofList x.positional
  | infinite false => "inf"
  | infinite true => "-inf"
  | undefined => "NaN"

/-- The greatest count that fits 64 bits. -/
def maxCount : Nat := 18446744073709551615

/-- The nearest count, a half going up; what is negative or undefined counts as nothing. -/
def count : Extended → Nat
  | finite x =>
    if x.negative then 0
    else min ((2 * Double.units x.rank + Double.pow2 1074) / Double.pow2 1075) maxCount
  | infinite false => maxCount
  | infinite true => 0
  | undefined => 0

theorem count_le (x : Extended) : x.count ≤ maxCount := by
  unfold count
  split
  · split
    · exact Nat.zero_le _
    · exact Nat.min_le_right ..
  all_goals simp

end Extended

end Workflow
