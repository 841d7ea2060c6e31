import Workflow.Pattern.Reader

/-!
Which patterns can be used. Nothing is known about characters beyond the first 128 but their order:
where patterns are about all characters, case cannot be ignored in them, and there are neither
shorthands nor words. Where they are about bytes, a set may only hold the first 128 characters.
-/

namespace Workflow

/-- What flags have been set. -/
structure PatternMode where
  ignoresCase : Bool
  isUnicode : Bool

namespace PatternMode

def initial : PatternMode := ⟨false, true⟩

def set (m : PatternMode) (f : PatternFlags) : PatternMode :=
  ⟨f.ignoresCase.getD m.ignoresCase, f.isUnicode.getD m.isUnicode⟩

end PatternMode

/-- A byte beyond the first 128 characters is none. -/
def PatternChar.isUsable (m : PatternMode) (c : PatternChar) : Bool :=
  if m.isUnicode then ! m.ignoresCase else ! c.isByte || c.char.toNat < 128

namespace Charset

/-- Whether a character may stand in a set. -/
def admits (m : PatternMode) (c : PatternChar) : Bool :=
  if m.isUnicode then ! m.ignoresCase else c.char.toNat < 128

mutual

def isUsable (m : PatternMode) : Charset → Bool
  | empty => true
  | single c => admits m c
  | range first last => admits m first && admits m last
  | named isNegated => if m.isUnicode then ! m.ignoresCase else ! isNegated
  | shorthand isNegated => ! m.isUnicode && ! isNegated
  | bracketed isNegated inner => inner.isUsable m && (m.isUnicode || ! isNegated)
  | union all => areUsable m all
  | combined left right => left.isUsable m && right.isUsable m

def areUsable (m : PatternMode) : List Charset → Bool
  | [] => true
  | s :: rest => s.isUsable m && areUsable m rest

end

end Charset

namespace Pattern

mutual

/-- The flags that are set behind a pattern, `none` when it cannot be used. -/
def modeBehind? (m : PatternMode) : Pattern → Option PatternMode
  | empty => some m
  | single c => if c.isUsable m then some m else none
  | any => if m.isUnicode then some m else none
  | anchor => some m
  | wordEdge => if m.isUnicode then none else some m
  | shorthand isNegated => if m.isUnicode || isNegated then none else some m
  | set isNegated inner =>
    if inner.isUsable m && (m.isUnicode || ! isNegated) then some m else none
  | flags f => some (m.set f)
  | repeated p => modeBehind? m p
  | group f p => (modeBehind? (m.set f) p).map fun _ => m
  | sequence all => modeBehindAll? m all
  | choice all => modeBehindAll? m all

def modeBehindAll? (m : PatternMode) : List Pattern → Option PatternMode
  | [] => some m
  | p :: rest => (modeBehind? m p).bind fun m => modeBehindAll? m rest

end

/-- How deep patterns may nest. -/
def deepest : Nat := 250

def isUsable (p : Pattern) : Bool := p.depth ≤ deepest && (p.modeBehind? .initial).isSome

end Pattern

end Workflow
