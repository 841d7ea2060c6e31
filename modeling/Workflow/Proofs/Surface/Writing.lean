import Workflow.Proofs.Surface.Judgement
import Workflow.Number.Hexadecimal

/-!
How a list of statements is written down. A statement is a row of tokens; what stands between two
tokens does not matter, as long as something does. A tree is compared without the places where its
parts were found.
-/

namespace Workflow

/-! ### Trees without spans -/

namespace Node

mutual

def bare : Node → Node
  | leaf worker args _ => leaf worker args Span.zero
  | sequence steps _ => sequence (bareOf steps) Span.zero
  | batch bindings body _ => batch bindings body.bare Span.zero
  | call name args none _ => call name args none Span.zero
  | call name args (some body) _ => call name args (some body.bare) Span.zero

def bareOf : List Node → List Node
  | [] => []
  | n :: ns => n.bare :: bareOf ns

end

end Node

def Definition.bare (d : Definition) : Definition :=
  { d with body := d.body.bare, span := Span.zero }

def DefinitionFile.bare (file : DefinitionFile) : DefinitionFile :=
  { file with definitions := file.definitions.map Definition.bare }

namespace Surface

/-! ### Statements -/

/-- A statement as it is meant to be written. -/
inductive Sentence where
  | call (name : String) (args : List Arg)
  | nest (name : String) (args : List Arg) (block : List Sentence)
  | batch (bindings : List Binding) (body : List Sentence)

mutual

/-- The tree of a statement. -/
def Sentence.node : Sentence → Node
  | .call name args => .call name args none Span.zero
  | .nest name args block => .call name args (some (joined Span.zero (Sentence.nodes block))) Span.zero
  | .batch bindings body => .batch bindings (joined Span.zero (Sentence.nodes body)) Span.zero

def Sentence.nodes : List Sentence → List Node
  | [] => []
  | s :: ss => s.node :: Sentence.nodes ss

end

/-- The tree of a list of statements. -/
def Sentence.tree (steps : List Sentence) : Node := joined Span.zero (Sentence.nodes steps)

inductive Declaration where
  | workers (names : List String)
  | definition (name : String) (parameters : List String) (body : List Sentence)

def Declaration.workers? : Declaration → List String
  | .workers names => names
  | .definition .. => []

def Declaration.definition? : Declaration → Option Definition
  | .workers _ => none
  | .definition name parameters body => some ⟨name, parameters, Sentence.tree body, none, Span.zero⟩

def Declaration.file (ds : List Declaration) : DefinitionFile :=
  ⟨ds.flatMap Declaration.workers?, ds.filterMap Declaration.definition?⟩

/-! ### Rows of tokens -/

abbrev Token := List Char

/-- What is written for each of several things, in a row. -/
inductive Row {α β : Type} (W : α → List β → Prop) : List α → List β → Prop
  | nil : Row W [] []
  | cons {x : α} {xs : List α} {ts ts' : List β} (h : W x ts) (hs : Row W xs ts') :
    Row W (x :: xs) (ts ++ ts')

/-- One thing or more, with commas between. -/
inductive Commas {α : Type} (W : α → List Token → Prop) : List α → List Token → Prop
  | one {x : α} {ts : List Token} (h : W x ts) : Commas W [x] ts
  | cons {x : α} {xs : List α} {ts ts' : List Token} (h : W x ts) (hs : Commas W xs ts') :
    Commas W (x :: xs) (ts ++ [','] :: ts')

/-- The same, or nothing. -/
inductive Optional {α : Type} (W : α → List Token → Prop) : List α → List Token → Prop
  | none : Optional W [] []
  | some {xs : List α} {ts : List Token} (h : Commas W xs ts) : Optional W xs ts

/-- Blanks, and comments that end with their line. -/
inductive IsGap : List Char → Prop
  | nil : IsGap []
  | blank {c : Char} {g : List Char} (hc : isBlank c = true) (hg : IsGap g) : IsGap (c :: g)
  | comment {w g : List Char} (hw : '\n' ∉ w) (hg : IsGap g) : IsGap ('#' :: w ++ '\n' :: g)

/-- Tokens with gaps behind them, which may be empty behind the last one only. -/
inductive Spaced : List Token → List Char → Prop
  | nil : Spaced [] []
  | cons {t : Token} {ts : List Token} {g cs : List Char} (hg : IsGap g) (hne : ts ≠ [] → g ≠ [])
    (h : Spaced ts cs) : Spaced (t :: ts) (t ++ (g ++ cs))

/-- A text of some tokens. -/
def Laid (ts : List Token) (text : String) : Prop :=
  ∃ g cs, IsGap g ∧ Spaced ts cs ∧ text.toList = g ++ cs

/-! ### Names -/

def IsIdentifier (w : List Char) : Prop :=
  ∃ c cs, w = c :: cs ∧ isIdentStart c = true ∧ (∀ x ∈ cs, isIdentChar x = true) ∧
    isKeyword w = false

instance : (w : List Char) → Decidable (IsIdentifier w)
  | [] => .isFalse (by rintro ⟨_, _, h, -⟩; cases h)
  | c :: cs => decidable_of_iff (isIdentStart c = true ∧ cs.all isIdentChar = true ∧
      isKeyword (c :: cs) = false) <| by
    rw [List.all_eq_true]
    refine ⟨fun h => ⟨c, cs, rfl, h⟩, ?_⟩
    rintro ⟨_, _, ⟨⟩, h⟩
    exact h

/-- Identifiers joined by `::`. -/
inductive IsName : List Char → Prop
  | one {w : List Char} (h : IsIdentifier w) : IsName w
  | cons {w n : List Char} (h : IsIdentifier w) (hn : IsName n) : IsName (w ++ ':' :: ':' :: n)

def symbolToken (name : String) : Token := ':' :: name.toList

def keyToken (key : String) : Token := key.toList ++ [':']

/-! ### Literals -/

/-- The letters of the escapes in JSON, with the characters that they stand for. -/
def shortEscapes : List (Char × Char) :=
  [('"', '"'), ('\\', '\\'), ('/', '/'), ('b', '\x08'), ('f', '\x0c'), ('n', '\n'), ('r', '\r'),
    ('t', '\t')]

/-- The units of 16 bits that a character takes. -/
def units (c : Char) : List Nat :=
  if c.toNat < 0x10000 then [c.toNat]
  else [0xD800 + (c.toNat - 0x10000) / 0x400, 0xDC00 + (c.toNat - 0x10000) % 0x400]

/-- A unit in four hexadecimal digits. -/
def IsUnit (n : Nat) (t : List Char) : Prop :=
  ∃ ds, ds.length = 4 ∧ Hexadecimal.value? ds = some n ∧ t = '\\' :: 'u' :: ds

/-- A character within a string in JSON. -/
inductive Escapes : Char → List Char → Prop
  | plain {c : Char} (h : ' ' ≤ c) (hq : c ≠ '"') (hb : c ≠ '\\') : Escapes c [c]
  | short {x c : Char} (h : (x, c) ∈ shortEscapes) : Escapes c ['\\', x]
  | unicode {c : Char} {t : List Char} (h : Row IsUnit (units c) t) : Escapes c t

/-- An integer of 64 bits with or without a sign: from `-2 ^ 63` on, and below `2 ^ 64`. -/
structure HasBits (z : Int) : Prop where
  low : -9223372036854775808 ≤ z
  high : z < 18446744073709551616

def decimal (z : Int) : List Char :=
  if z < 0 then '-' :: Nat.toDigits 10 z.natAbs else Nat.toDigits 10 z.natAbs

/-- Nulls, booleans, integers, strings and arrays of these. -/
inductive WritesValue : Value → List Token → Prop
  | null : WritesValue .null ["nil".toList]
  | true : WritesValue (.bool true) ["true".toList]
  | false : WritesValue (.bool false) ["false".toList]
  | integer {z : Int} (hz : HasBits z) :
    WritesValue (.number (.integer z)) [decimal z]
  | string {s : String} {t : List Char} (h : Row Escapes s.toList t) :
    WritesValue (.string s) ['"' :: t ++ ['"']]
  | array {vs : List Value} {ts : List Token} (h : Optional WritesValue vs ts) :
    WritesValue (.array vs) (['['] :: ts ++ [[']']])

/-! ### Statements -/

inductive WritesArg : Arg → List Token → Prop
  | shorthand {name : String} : WritesArg (.param name) [symbolToken name]
  | keyed {key name : String} : WritesArg (.keyed key name) [keyToken key, symbolToken name]
  | literal {key : String} {v : Value} {ts : List Token} (h : WritesValue v ts) :
    WritesArg (.literal key v) (keyToken key :: ts)

def WritesName (name : String) (ts : List Token) : Prop := ts = [name.toList]

def WritesSymbol (name : String) (ts : List Token) : Prop := ts = [symbolToken name]

def WritesBinding (b : Binding) (ts : List Token) : Prop :=
  ts = [keyToken b.list, symbolToken b.element]

/-- The tokens of a block with statements between its words. -/
def blockTokens (ts : List Token) : List Token := "do".toList :: ts ++ ["end".toList]

inductive Sentence.Writes : Sentence → List Token → Prop
  | call {name : String} {args : List Arg} {ts : List Token} (ha : Optional WritesArg args ts) :
    Sentence.Writes (.call name args) (name.toList :: ts)
  | nest {name : String} {args : List Arg} {block : List Sentence} {ts ts' : List Token}
    (ha : Optional WritesArg args ts) (hb : Row Sentence.Writes block ts') :
    Sentence.Writes (.nest name args block) (name.toList :: ts ++ blockTokens ts')
  | batch {bindings : List Binding} {body : List Sentence} {ts ts' : List Token}
    (hbs : Commas WritesBinding bindings ts) (hb : Row Sentence.Writes body ts') :
    Sentence.Writes (.batch bindings body) ("batch".toList :: ts ++ blockTokens ts')

inductive Declaration.Writes : Declaration → List Token → Prop
  | workers {names : List String} {ts : List Token}
    (h : Commas WritesName names ts) :
    Declaration.Writes (.workers names) ("workers".toList :: ts)
  | definition {name : String} {parameters : List String} {body : List Sentence} {ts ts' : List Token}
    (hp : Optional WritesSymbol parameters ts)
    (hb : Row Sentence.Writes body ts') :
    Declaration.Writes (.definition name parameters body)
      ("superworker".toList :: name.toList :: ts ++ blockTokens ts')

/-! ### What can be written -/

/-- A value of a literal. -/
inductive IsLiteral : Value → Prop
  | null : IsLiteral .null
  | bool {b : Bool} : IsLiteral (.bool b)
  | integer {z : Int} (hz : HasBits z) :
    IsLiteral (.number (.integer z))
  | string {s : String} : IsLiteral (.string s)
  | array {vs : List Value} (h : ∀ v ∈ vs, IsLiteral v) : IsLiteral (.array vs)

structure ArgsLegible (args : List Arg) : Prop where
  keys : ∀ a ∈ args, IsIdentifier a.key.toList
  names : ∀ a ∈ args, ∀ name, a.source = .param name → IsIdentifier name.toList
  literals : ∀ a ∈ args, ∀ v, a.source = .literal v → IsLiteral v
  distinct : (args.map Arg.key).Nodup

structure BindingsLegible (bindings : List Binding) : Prop where
  some : bindings ≠ []
  lists : ∀ b ∈ bindings, IsIdentifier b.list.toList
  elements : ∀ b ∈ bindings, IsIdentifier b.element.toList
  distinctLists : (bindings.map Binding.list).Nodup
  distinctElements : (bindings.map Binding.element).Nodup

inductive Sentence.Legible : Sentence → Prop
  | call {name : String} {args : List Arg} (hn : IsName name.toList) (ha : ArgsLegible args) :
    Sentence.Legible (.call name args)
  | nest {name : String} {args : List Arg} {block : List Sentence} (hn : IsName name.toList)
    (ha : ArgsLegible args) (hne : block ≠ []) (hb : ∀ s ∈ block, Sentence.Legible s) :
    Sentence.Legible (.nest name args block)
  | batch {bindings : List Binding} {body : List Sentence} (hbs : BindingsLegible bindings)
    (hne : body ≠ []) (hb : ∀ s ∈ body, Sentence.Legible s) : Sentence.Legible (.batch bindings body)

inductive Declaration.Legible : Declaration → Prop
  | workers {names : List String} (hne : names ≠ []) (hn : ∀ n ∈ names, IsName n.toList) :
    Declaration.Legible (.workers names)
  | definition {name : String} {parameters : List String} {body : List Sentence}
    (hn : IsName name.toList) (hp : ∀ p ∈ parameters, IsIdentifier p.toList)
    (hd : parameters.Nodup) (hne : body ≠ []) (hb : ∀ s ∈ body, s.Legible) :
    Declaration.Legible (.definition name parameters body)

end Surface

end Workflow
