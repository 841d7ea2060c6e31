/-!
Patterns, as regular expressions are called here: what they are made of, and how deep it nests.
-/

namespace Workflow

/-- A character of a pattern. Two hexadecimal digits give it as a byte. -/
structure PatternChar where
  char : Char
  isByte : Bool

/-- What a group sets for the patterns in it, or a group of nothing else for those behind it. -/
structure PatternFlags where
  ignoresCase : Option Bool
  isUnicode : Option Bool
  isVerbose : Option Bool

/-- Sets of characters, as they are written between brackets. -/
inductive Charset where
  | empty
  | single (c : PatternChar)
  | range (first last : PatternChar)
  /-- One of those with a name between colons, which are sets of the first 128 characters. -/
  | named (isNegated : Bool)
  /-- Digits, spaces or what words are made of, by an escaped letter. -/
  | shorthand (isNegated : Bool)
  | bracketed (isNegated : Bool) (inner : Charset)
  | union (all : List Charset)
  /-- What is in both, in one and not the other, or in just one. -/
  | combined (left right : Charset)

inductive Pattern where
  | empty
  | single (c : PatternChar)
  | any
  /-- The start or the end of a line or a text. -/
  | anchor
  /-- Where a word begins or ends, or where none does. -/
  | wordEdge
  | shorthand (isNegated : Bool)
  | set (isNegated : Bool) (inner : Charset)
  | flags (f : PatternFlags)
  | repeated (p : Pattern)
  | group (f : PatternFlags) (p : Pattern)
  | sequence (all : List Pattern)
  | choice (all : List Pattern)

namespace Charset

mutual

/-- How many brackets, unions and combinations are around the innermost set. -/
def depth : Charset → Nat
  | empty => 0
  | single _ => 0
  | range _ _ => 0
  | named _ => 0
  | shorthand _ => 0
  | bracketed _ inner => inner.depth + 1
  | union all => depthOfAll all + 1
  | combined left right => max left.depth right.depth + 1

def depthOfAll : List Charset → Nat
  | [] => 0
  | s :: rest => max s.depth (depthOfAll rest)

end

/-- The set of what is in any of some sets. -/
def ofList : List Charset → Charset
  | [] => empty
  | [s] => s
  | all => union all

end Charset

namespace PatternFlags

def none : PatternFlags := ⟨.none, .none, .none⟩

end PatternFlags

namespace Pattern

mutual

/-- How many patterns that hold others are around the innermost one. -/
def depth : Pattern → Nat
  | empty => 0
  | single _ => 0
  | any => 0
  | anchor => 0
  | wordEdge => 0
  | shorthand _ => 0
  | set _ inner => inner.depth + 1
  | flags _ => 0
  | repeated p => p.depth + 1
  | group _ p => p.depth + 1
  | sequence all => depthOfAll all + 1
  | choice all => depthOfAll all + 1

def depthOfAll : List Pattern → Nat
  | [] => 0
  | p :: rest => max p.depth (depthOfAll rest)

end

/-- Patterns one behind the other. -/
def ofList : List Pattern → Pattern
  | [] => empty
  | [p] => p
  | all => sequence all

/-- One of several patterns. -/
def ofChoices : List Pattern → Pattern
  | [p] => p
  | all => choice all

/-- What stands for nothing by itself cannot be repeated. -/
def isRepeatable : Pattern → Bool
  | empty => false
  | flags _ => false
  | _ => true

end Pattern

end Workflow
