import Workflow.Proofs.Surface.Peg

/-!
The syntax of the language as a grammar of parsing expressions.
-/

namespace Workflow.Surface

namespace Syntax

inductive RuleName where
  | whitespace | comment
  | identChar | keyword | kwSuperworker | kwWorkers | kwBatch | kwDo | kwEnd
  | identifier | workerName | symbol
  | string | stringInner | number | boolean | nil | array | literal
  | argKey | keywordArg | argList | binding | bindingList
  | block | batchStmt | callStmt | statement
  | paramList | workersDecl | definition
  | endOfInput | body | program
deriving DecidableEq

namespace RuleName

def kind : RuleName → RuleKind
  | whitespace | comment | identChar | statement => .silent
  | keyword | kwSuperworker | kwWorkers | kwBatch | kwDo | kwEnd | identifier | workerName
  | stringInner | number | boolean | nil => .word
  | symbol | string | argKey => .compact
  | array | literal | keywordArg | argList | binding | bindingList | block | batchStmt | callStmt
  | paramList | workersDecl | definition | endOfInput | body | program => .normal

end RuleName

open Peg

abbrev Expression := Peg RuleName

def lit (w : String) : Expression := text w.toList

def any : Expression := one fun _ => true

def letter : Expression := one Char.isAlpha

def letterOrDigit : Expression := one Char.isAlphanum

def digit : Expression := one Char.isDigit

/-- A character in either case. -/
def eitherCase (lower upper : Char) : Expression := one fun c => c = lower || c = upper

/-- One of the given words, with nothing behind it that would make it longer. -/
def words (ws : List String) : Expression := seq (texts ws) (no (rule .identChar))

/-- One item or more with commas between. -/
def commaList (item : Expression) : Expression := seq item (star (seq (lit ",") item))

def exponentMark : Expression := eitherCase 'e' 'E'

def argument : Expression := alt (rule .keywordArg) (rule .symbol)

def RuleName.expression : RuleName → Expression
  | whitespace => texts [" ", "\t", "\r", "\n"]
  | comment => seq (lit "#") (star (seq (no (lit "\n")) any))
  | identChar => alt letterOrDigit (lit "_")
  | keyword => words ["superworker", "workers", "batch", "do", "end", "true", "false", "nil"]
  | kwSuperworker => words ["superworker"]
  | kwWorkers => words ["workers"]
  | kwBatch => words ["batch"]
  | kwDo => words ["do"]
  | kwEnd => words ["end"]
  | identifier => seq (no (rule keyword)) (seq (alt letter (lit "_")) (star (rule identChar)))
  | workerName => seq (rule identifier) (star (seq (lit "::") (rule identifier)))
  | symbol => seq (lit ":") (rule identifier)
  | string => seq (lit "\"") (seq (rule stringInner) (lit "\""))
  | stringInner => star (alt (seq (lit "\\") any) (seq (no (alt (lit "\"") (lit "\\"))) any))
  | number =>
    seq (opt (lit "-")) <| seq (plus digit) <| seq (opt (seq (lit ".") (plus digit)))
      (opt (seq exponentMark (seq (opt (alt (lit "+") (lit "-"))) (plus digit))))
  | boolean => words ["true", "false"]
  | nil => words ["nil"]
  | array => seq (lit "[") (seq (opt (commaList (rule literal))) (lit "]"))
  | literal =>
    alt (rule string) <| alt (rule number) <| alt (rule boolean) <| alt (rule nil) (rule array)
  | argKey => seq (rule identifier) (seq (lit ":") (no (lit ":")))
  | keywordArg => seq (rule argKey) (alt (rule symbol) (rule literal))
  | argList => commaList argument
  | binding => seq (rule argKey) (rule symbol)
  | bindingList => commaList (rule binding)
  | block => seq (rule kwDo) (seq (star (rule statement)) (rule kwEnd))
  | batchStmt => seq (rule kwBatch) (seq (opt (rule bindingList)) (rule block))
  | callStmt => seq (rule workerName) (seq (opt (rule argList)) (opt (rule block)))
  | statement => alt (rule batchStmt) (rule callStmt)
  | paramList => commaList (rule symbol)
  | workersDecl => seq (rule kwWorkers) (commaList (rule workerName))
  | definition =>
    seq (rule kwSuperworker) (seq (rule workerName) (seq (opt (rule paramList)) (rule block)))
  | endOfInput => stop
  | body => seq start (seq (star (rule statement)) (rule endOfInput))
  | program => seq start (seq (star (alt (rule workersDecl) (rule definition))) (rule endOfInput))

/-- Blanks and comments stand between words. -/
def grammar : PegGrammar RuleName where
  kind := RuleName.kind
  body := RuleName.expression
  blank := star (alt (rule .whitespace) (rule .comment))

end Syntax

end Workflow.Surface
