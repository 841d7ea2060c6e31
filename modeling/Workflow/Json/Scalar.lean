import Workflow.Json.Value
import Workflow.Number.Hexadecimal
import Workflow.Text.Bytes

/-!
Reading a JSON number or string from the front of a text. A refusal tells its cause and how many
bytes were read when it was found.
-/

namespace Workflow.Json

inductive Cause where
  | invalidNumber
  | numberOutOfRange
  | invalidEscape
  | unterminated
  | controlCharacter
  | loneSurrogate
  | missingSurrogate
deriving DecidableEq

def Cause.message : Cause → String
  | invalidNumber => "invalid number"
  | numberOutOfRange => "number out of range"
  | invalidEscape => "invalid escape"
  | unterminated => "EOF while parsing a string"
  | controlCharacter => "control character (\\u0000-\\u001F) found while parsing a string"
  | loneSurrogate => "lone leading surrogate in hex escape"
  | missingSurrogate => "unexpected end of hex escape"

structure Refusal where
  cause : Cause
  bytes : Nat
deriving DecidableEq

/-- The line, from 1, and the bytes read since its start, once `bytes` of the text are read. -/
def lineAndColumn (text : List Char) (bytes : Nat) : Nat × Nat :=
  go 0 1 0 text
where
  go (pos line start : Nat) : List Char → Nat × Nat
    | [] => (line, bytes - start)
    | c :: cs =>
      let next := pos + c.utf8Size
      if next ≤ bytes ∧ c = '\n' then go next (line + 1) next cs else go next line start cs

def Refusal.message (r : Refusal) (token : List Char) : String :=
  let (line, column) := lineAndColumn token r.bytes
  s!"{r.cause.message} at line {line} column {column}"

/-! ### Numbers -/

def digitValue (c : Char) : Nat := c.toNat - '0'.toNat

def maxUnsigned : Nat := 18446744073709551615

/-- Takes digits into a significand as long as it fits 64 bits. -/
def absorb (m : Nat) : List Char → Nat × List Char
  | [] => (m, [])
  | d :: ds =>
    let m' := m * 10 + digitValue d
    if maxUnsigned < m' then (m, d :: ds) else absorb m' ds

/-- The largest exponent that is told from an infinite one. -/
def maxExponent : Nat := 2147483647

/-- The value of exponent digits, or how many of them it takes to pass `maxExponent`. -/
def exponentValue (e used : Nat) : List Char → Except Nat Nat
  | [] => .ok e
  | d :: ds =>
    let e' := e * 10 + digitValue d
    if maxExponent < e' then .error (used + 1) else exponentValue e' (used + 1) ds

def double (negative : Bool) (m : Nat) (e : Int) : Option Number :=
  (Double.ofDecimal? m e).bind (Double.ofRank? negative) |>.map .double

/-- An integer that does not fit 64 bits, or is `-0`, is a double. -/
def integer (negative : Bool) (m : Nat) : Option Number :=
  if ! negative then some (.integer m)
  else if m = 0 ∨ 9223372036854775808 < m then double true m 0
  else some (.integer (-m))

/-- Reads an exponent mark, a sign and digits off the front. -/
def exponentPart : List Char → Option (Bool × List Char × List Char)
  | c :: cs =>
    if c = 'e' ∨ c = 'E' then
      let (negative, ds) :=
        match cs with
        | '+' :: ds => (false, ds)
        | '-' :: ds => (true, ds)
        | _ => (false, cs)
      some (negative, ds.takeWhile Char.isDigit, ds.dropWhile Char.isDigit)
    else none
  | [] => none

/-- Closes a number that has a fraction, an exponent or too many digits. -/
def scaled (negative : Bool) (m : Nat) (e : Int) (pos : Nat) (rest : List Char) :
    Except Refusal (Number × List Char) :=
  let refuse {α : Type} (cause : Cause) (bytes : Nat) : Except Refusal α := .error ⟨cause, bytes⟩
  match exponentPart rest with
  | none =>
    match double negative m e with
    | some x => .ok (x, rest)
    | none => refuse .numberOutOfRange pos
  | some (down, ds, rest') =>
    let pos' := pos + (rest.length - rest'.length)
    if ds.isEmpty then refuse .invalidNumber pos'
    else
      match exponentValue 0 0 ds with
      | .error used =>
        if m ≠ 0 ∧ down = false then refuse .numberOutOfRange (pos' - ds.length + used)
        else .ok (.double (Double.zero negative), rest')
      | .ok k =>
        match double negative m (if down then e - k else e + k) with
        | some x => .ok (x, rest')
        | none => refuse .numberOutOfRange pos'

/-- Reads a number off the front of a text. -/
def readNumber (text : List Char) : Except Refusal (Number × List Char) :=
  let (negative, sign, body) :=
    match text with
    | '-' :: body => (true, 1, body)
    | _ => (false, 0, text)
  let whole := body.takeWhile Char.isDigit
  let rest := body.dropWhile Char.isDigit
  let pos := sign + whole.length
  if whole.isEmpty then .error ⟨.invalidNumber, sign + 1⟩
  else if whole.head? = some '0' ∧ 1 < whole.length then .error ⟨.invalidNumber, sign + 2⟩
  else
    let (m, beyond) := absorb 0 whole
    match rest with
    | '.' :: rest =>
      let part := rest.takeWhile Char.isDigit
      let rest' := rest.dropWhile Char.isDigit
      if part.isEmpty then .error ⟨.invalidNumber, pos + 2⟩
      else
        let (m', left) := absorb m part
        scaled negative m' (beyond.length - (part.length - left.length : Nat))
          (pos + 1 + part.length) rest'
    | _ =>
      if (exponentPart rest).isNone ∧ beyond.isEmpty then
        match integer negative m with
        | some n => .ok (n, rest)
        | none => .error ⟨.numberOutOfRange, pos⟩
      else scaled negative m beyond.length pos rest

/-! ### Strings -/

/-- Four hexadecimal digits. -/
def hexUnit : List Char → Option (Nat × List Char)
  | a :: b :: c :: d :: rest => do
    let a ← Hexadecimal.digit? a
    let b ← Hexadecimal.digit? b
    let c ← Hexadecimal.digit? c
    let d ← Hexadecimal.digit? d
    some (((a * 16 + b) * 16 + c) * 16 + d, rest)
  | _ => none

/-- The refusal of what follows `\u` when it is not four hexadecimal digits. -/
def badUnit (pos : Nat) (rest : List Char) : Refusal :=
  if 4 ≤ Text.utf8Length rest then ⟨.invalidEscape, pos + 4⟩
  else ⟨.unterminated, pos + Text.utf8Length rest⟩

def isLeading (n : Nat) : Bool := 0xD800 ≤ n && n ≤ 0xDBFF

def isTrailing (n : Nat) : Bool := 0xDC00 ≤ n && n ≤ 0xDFFF

def joinSurrogates (lead trail : Nat) : Char :=
  Char.ofNat (0x10000 + (lead - 0xD800) * 0x400 + (trail - 0xDC00))

/-- Reads the digits after `\u`, and the second escape of a surrogate pair. -/
def unicodeEscape (pos : Nat) (text : List Char) : Except Refusal (Char × Nat × List Char) :=
  match hexUnit text with
  | none => .error (badUnit pos text)
  | some (n, rest) =>
    let pos := pos + 4
    if isTrailing n then .error ⟨.loneSurrogate, pos⟩
    else if ! isLeading n then .ok (Char.ofNat n, pos, rest)
    else
      match rest with
      | '\\' :: 'u' :: rest =>
        match hexUnit rest with
        | none => .error (badUnit (pos + 2) rest)
        | some (n', rest) =>
          if isTrailing n' then .ok (joinSurrogates n n', pos + 6, rest)
          else .error ⟨.loneSurrogate, pos + 6⟩
      | ['\\'] => .error ⟨.unterminated, pos + 1⟩
      | '\\' :: _ => .error ⟨.missingSurrogate, pos + 2⟩
      | [] => .error ⟨.unterminated, pos⟩
      | _ => .error ⟨.missingSurrogate, pos + 1⟩

theorem hexUnit_length {text rest : List Char} {n : Nat} (h : hexUnit text = some (n, rest)) :
    rest.length < text.length := by
  unfold hexUnit at h
  split at h
  · simp only [Option.bind_eq_bind, Option.bind_eq_some_iff, Option.some.injEq, Prod.mk.injEq] at h
    obtain ⟨_, -, _, -, _, -, _, -, -, rfl⟩ := h
    simp only [List.length_cons]
    omega
  · simp at h

theorem unicodeEscape_length {pos pos' : Nat} {text rest : List Char} {c : Char}
    (h : unicodeEscape pos text = .ok (c, pos', rest)) : rest.length < text.length := by
  unfold unicodeEscape at h
  split at h
  · simp at h
  · rename_i n rest₁ h₁
    have l₁ := hexUnit_length h₁
    dsimp only at h
    split at h
    · simp at h
    · split at h
      · simp only [Except.ok.injEq, Prod.mk.injEq] at h
        exact h.2.2 ▸ l₁
      · split at h
        · rename_i rest₂
          split at h
          · simp at h
          · rename_i n' rest₃ h₃
            have l₃ := hexUnit_length h₃
            split at h
            · simp only [Except.ok.injEq, Prod.mk.injEq] at h
              simp only [List.length_cons] at l₁
              rw [← h.2.2]
              omega
            · simp at h
        · simp at h
        · simp at h
        · simp at h
        · simp at h

/-- The character that a one-letter escape stands for. -/
def shortEscape : Char → Option Char
  | '"' => some '"'
  | '\\' => some '\\'
  | '/' => some '/'
  | 'b' => some '\x08'
  | 'f' => some '\x0c'
  | 'n' => some '\n'
  | 'r' => some '\r'
  | 't' => some '\t'
  | _ => none

/-- Reads the rest of a string behind its opening quote, of which `pos` bytes of text are read;
`read` holds the characters so far, last one first. -/
def stringBody (pos : Nat) (read : List Char) (text : List Char) :
    Except Refusal (List Char × List Char) :=
  match text with
  | [] => .error ⟨.unterminated, pos⟩
  | '"' :: rest => .ok (read.reverse, rest)
  | ['\\'] => .error ⟨.unterminated, pos + 1⟩
  | '\\' :: 'u' :: rest =>
    match _h : unicodeEscape (pos + 2) rest with
    | .error r => .error r
    | .ok (c, pos', rest') => stringBody pos' (c :: read) rest'
  | '\\' :: c :: rest =>
    match shortEscape c with
    | some e => stringBody (pos + 2) (e :: read) rest
    | none => .error ⟨.invalidEscape, pos + 2⟩
  | c :: rest =>
    if c < ' ' then .error ⟨.controlCharacter, pos + 1⟩
    else stringBody (pos + c.utf8Size) (c :: read) rest
termination_by text.length
decreasing_by
  · have := unicodeEscape_length _h
    simp only [List.length_cons]
    omega
  all_goals simp only [List.length_cons]; omega

/-- Reads a string, quotes included, off the front of a text. -/
def readString : List Char → Except Refusal (String × List Char)
  | '"' :: rest =>
    match stringBody 1 [] rest with
    | .ok (cs, rest) => .ok (String.ofList cs, rest)
    | .error r => .error r
  | _ => .error ⟨.unterminated, 0⟩

end Workflow.Json
