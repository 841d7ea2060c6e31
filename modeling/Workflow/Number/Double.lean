/-!
Finite binary64 numbers. A magnitude is known by its rank among all magnitudes 0, 1, 2, … in
ascending order: rank `r` below `2 ^ 52` is `r` units of `2 ^ -1074`, and every further stretch
of `2 ^ 52` ranks doubles the step. All arithmetic is exact and rounds once, to the nearest
rank, a tie to the even one.
-/

namespace Workflow.Double

def pow2 (n : Nat) : Nat := Nat.pow 2 n

def pow10 (n : Nat) : Nat := Nat.pow 10 n

/-- The rank of the first magnitude that is too great to be finite. -/
def infinity : Nat := 2047 * pow2 52

end Workflow.Double

namespace Workflow

structure Double where
  negative : Bool
  rank : Nat
  finite : rank < Double.infinity
deriving DecidableEq

namespace Double

/-- A magnitude is `significand r * 2 ^ scale r` units of `2 ^ -1074`. -/
def scale (r : Nat) : Nat := r / pow2 52 - 1

def significand (r : Nat) : Nat := r - scale r * pow2 52

def units (r : Nat) : Nat := significand r * pow2 (scale r)

/-- The integer nearest to `num / den`, a tie going to the even one. -/
def roundEven (num den : Nat) : Nat :=
  let q := num / den
  let r := num % den
  if 2 * r < den then q else if den < 2 * r then q + 1 else q + q % 2

/-- The rank nearest to `num / den` units; one past the finite ranks stands for overflow. -/
def nearestUnits (num den : Nat) : Nat :=
  let k := (num / den).log2 - 52
  k * pow2 52 + roundEven num (den * pow2 k)

def nearest (num den : Nat) : Nat := nearestUnits (num * pow2 1074) den

def ofNat (n : Nat) : Nat := nearest n 1

/-- The rank of the power `10 ^ e`, as a constant of the format would be written. -/
def powerOfTen (e : Nat) : Nat := ofNat (pow10 e)

def product (r s : Nat) : Nat := nearestUnits (units r * units s) (pow2 1074)

def quotient (r s : Nat) : Nat := nearest (units r) (units s)

/-- Divides by a power of ten in steps of at most `10 ^ 308`, rounding at each step. -/
def shrink (r e : Nat) : Nat :=
  if e ≤ 308 then quotient r (powerOfTen e)
  else if r = 0 then 0
  else shrink (quotient r (powerOfTen 308)) (e - 308)
termination_by e

/-- The rank of `m * 10 ^ e`: the significand is rounded first and then scaled by a rounded
power of ten. `none` when it is too great. -/
def ofDecimal? (m : Nat) (e : Int) : Option Nat :=
  match e with
  | .ofNat e =>
    if m = 0 then some 0
    else if 308 < e then none
    else
      let r := product (ofNat m) (powerOfTen e)
      if r < infinity then some r else none
  | .negSucc e => some (shrink (ofNat m) (e + 1))

/-- The rank nearest to `m * 10 ^ e`, with a single rounding. `none` when it is too great. -/
def nearestDecimal? (m : Nat) (e : Int) : Option Nat :=
  if m = 0 then some 0
  else
    let order := e + (Nat.toDigits 10 m).length
    if 400 < order then none
    else if order < -400 then some 0
    else
      let r := if 0 ≤ e then nearest (m * pow10 e.toNat) 1 else nearest m (pow10 e.natAbs)
      if r < infinity then some r else none

def ofRank? (negative : Bool) (r : Nat) : Option Double :=
  if h : r < infinity then some ⟨negative, r, h⟩ else none

def zero (negative : Bool) : Double := ⟨negative, 0, by decide⟩

theorem units_zero : units 0 = 0 := rfl

theorem roundEven_one (n : Nat) : roundEven n 1 = n := by
  simp [roundEven, Nat.mod_one]

end Double

end Workflow
