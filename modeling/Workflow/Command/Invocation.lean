import Workflow.Number.Numeral

/-!
The command line, read into an invocation. Options may stand anywhere behind the word that takes
them; everything behind a bare `--` is an operand, dashes or not. The options that every command
takes may stand in front of it too, and then those behind it count.
-/

namespace Workflow.Command

/-- Options that take a value or say something by being there. -/
inductive Switch where
  | settingsFile
  | definitions
  | args
  | outline
  | failing
  | limit
  | version
  | help
deriving DecidableEq

namespace Switch

def long : Switch → String
  | settingsFile => "config"
  | definitions => "definitions"
  | args => "args"
  | outline => "tree"
  | failing => "fail"
  | limit => "max-in-flight"
  | version => "version"
  | help => "help"

def short? : Switch → Option Char
  | definitions => some 'd'
  | args => some 'a'
  | version => some 'V'
  | help => some 'h'
  | _ => none

def takesValue : Switch → Bool
  | outline => false
  | version => false
  | help => false
  | _ => true

def isRepeatable : Switch → Bool
  | definitions => true
  | failing => true
  | _ => false

/-- Paths may not be empty, and a limit is a count. -/
def allows (s : Switch) (value : String) : Bool :=
  match s with
  | settingsFile => value ≠ ""
  | definitions => value ≠ ""
  | limit => (Numeral.count? value.toList).isSome
  | _ => true

end Switch

/-- Why a command line starts no command. -/
inductive Refusal where
  | misuse
  | version
  | help
deriving DecidableEq

/-- What a stretch of a command line says. -/
structure Words where
  switches : List (Switch × String)
  operands : List String

namespace Words

def empty : Words := ⟨[], []⟩

def values (w : Words) (s : Switch) : List String :=
  (w.switches.filter fun e => e.1 = s).map Prod.snd

def has (w : Words) (s : Switch) : Bool := w.switches.any fun e => e.1 = s

/-- Adds a switch that may be given here and with this value. -/
def add (w : Words) (s : Switch) (value : String) : Except Refusal Words :=
  if s = .version then .error .version
  else if s = .help then .error .help
  else if ! s.allows value || (w.has s && ! s.isRepeatable) then .error .misuse
  else .ok { w with switches := w.switches ++ [(s, value)] }

end Words

/-- A single dash is an operand. -/
def isDashed (word : String) : Bool := word.startsWith "-" && word != "-"

/-- The value of a switch, taken from the words behind it when none is attached. -/
def valueOf (attached : Option String) (rest : List String) :
    Except Refusal (String × List String) :=
  match attached, rest with
  | some value, rest => .ok (value, rest)
  | none, word :: rest => if isDashed word then .error .misuse else .ok (word, rest)
  | none, [] => .error .misuse

/-- A long switch and what is attached to it by a sign of equality. -/
def splitLong (cs : List Char) : String × Option String :=
  let name := String.ofList (cs.takeWhile (· ≠ '='))
  match cs.dropWhile (· ≠ '=') with
  | [] => (name, none)
  | _ :: value => (name, some (String.ofList value))

def readLong (known : List Switch) (w : Words) (cs : List Char) (rest : List String) :
    Except Refusal (Words × List String) :=
  let (name, attached) := splitLong cs
  match known.find? fun s => s.long = name with
  | none => .error .misuse
  | some s =>
    if s.takesValue then do
      let (value, rest) ← valueOf attached rest
      pure (← w.add s value, rest)
    else if attached.isSome then .error .misuse
    else do pure (← w.add s "", rest)

/-- What is attached to a short switch; a sign of equality in front does not belong to it. -/
def attachedTo : List Char → Option String
  | [] => none
  | '=' :: value => some (String.ofList value)
  | value => some (String.ofList value)

/-- Short switches may follow one another behind one dash, up to one that takes a value. -/
def readShort (known : List Switch) (w : Words) (rest : List String) :
    List Char → Except Refusal (Words × List String)
  | [] => .ok (w, rest)
  | c :: cs =>
    match known.find? fun s => s.short? = some c with
    | none => .error .misuse
    | some s =>
      if s.takesValue then do
        let (value, rest) ← valueOf (attachedTo cs) rest
        pure (← w.add s value, rest)
      else do readShort known (← w.add s "") rest cs

/-- Reads the switch at the front of the words, `none` if there is none. -/
def readSwitch? (known : List Switch) (w : Words) (word : String) (rest : List String) :
    Option (Except Refusal (Words × List String)) :=
  match word.toList with
  | '-' :: '-' :: cs => some (readLong known w cs rest)
  | '-' :: c :: cs => some (readShort known w rest (c :: cs))
  | _ => none

/-! ### Commands -/

inductive Action where
  | check (paths : List String)
  | compile (name args : String) (outline : Bool)
  | simulate (name args : String) (failing : List String) (limit : Option Nat)
  | showSettings
deriving DecidableEq

structure Invocation where
  settingsFile : Option String
  definitions : List String
  action : Action
deriving DecidableEq

inductive Name where
  | check
  | compile
  | simulate
  | config
deriving DecidableEq

namespace Name

def ofText? (s : String) : Option Name :=
  if s = "check" then some check
  else if s = "compile" then some compile
  else if s = "simulate" then some simulate
  else if s = "config" then some config
  else none

def switches (n : Name) : List Switch :=
  let own : List Switch :=
    match n with
    | check => []
    | compile => [.args, .outline]
    | simulate => [.args, .failing, .limit]
    | config => []
  own ++ [.settingsFile, .definitions, .help]

/-- Adds an operand if the command has a place for it. -/
def addOperand (n : Name) (w : Words) (operand : String) : Except Refusal Words :=
  let fits :=
    match n with
    | check => operand != ""
    | compile => w.operands.isEmpty
    | simulate => w.operands.isEmpty
    | config => false
  if fits then .ok { w with operands := w.operands ++ [operand] } else .error .misuse

def addOperands (n : Name) (w : Words) : List String → Except Refusal Words
  | [] => .ok w
  | operand :: rest => do n.addOperands (← n.addOperand w operand) rest

/-- Reads the words behind the name of a command; each step takes a word, so their number bounds
the steps. -/
def readWords (n : Name) (w : Words) : (fuel : Nat) → List String → Except Refusal Words
  | 0, _ => .ok w
  | _, [] => .ok w
  | fuel + 1, word :: rest =>
    if word = "--" then n.addOperands w rest
    else
      match readSwitch? n.switches w word rest with
      | some read => do
        let (w, rest) ← read
        readWords n w fuel rest
      | none => do readWords n (← n.addOperand w word) fuel rest

def action (n : Name) (w : Words) : Except Refusal Action :=
  let args := (w.values .args).head?.getD "\x7b\x7d"
  match n, w.operands with
  | check, paths => .ok (.check paths)
  | compile, name :: _ => .ok (.compile name args (w.has .outline))
  | simulate, name :: _ =>
    let limit := (w.values .limit).head?.bind fun s => Numeral.count? s.toList
    .ok (.simulate name args (w.values .failing) limit)
  | config, _ => .ok .showSettings
  | _, [] => .error .misuse

end Name

/-- An invocation by the words in front of the command and those behind it. -/
def invocation (n : Name) (front behind : Words) : Except Refusal Invocation := do
  let values (s : Switch) := if behind.has s then behind.values s else front.values s
  pure ⟨(values .settingsFile).head?, values .definitions, ← n.action behind⟩

/-- Help may be asked for on a command, which has no commands of its own. -/
def helpOn (words : List String) : Refusal :=
  match words with
  | [] => .help
  | [word] => if word = "help" || (Name.ofText? word).isSome then .help else .misuse
  | _ => .misuse

/-- Reads the words up to the name of a command and then those behind it. -/
def readFront (w : Words) : (fuel : Nat) → List String → Except Refusal Invocation
  | 0, _ => .error .misuse
  | _, [] => .error .misuse
  | fuel + 1, word :: rest =>
    match readSwitch? [.settingsFile, .definitions, .version, .help] w word rest with
    | some read => do
      let (w, rest) ← read
      readFront w fuel rest
    | none =>
      if word = "help" then .error (helpOn rest)
      else
        match Name.ofText? word with
        | none => .error .misuse
        | some n => do invocation n w (← n.readWords Words.empty (rest.length + 1) rest)

/-- The invocation that a command line asks for. -/
def read (words : List String) : Except Refusal Invocation :=
  readFront Words.empty (words.length + 1) words

end Workflow.Command
