import DiceNotation.Expression.Parser
import DiceNotation.Roll.Error
import DiceNotation.Text.Column
import DiceNotation.Text.Quoted
import DiceNotation.Token.Lexer

/-!
# Failures and how they are reported

A line fails while it is read into tokens, while these are parsed, or while the expression is
rolled. A report is what a user sees of it.
-/
namespace DiceNotation

inductive Failure
  | lexing (error : LexError)
  | parsing (error : ParseError)
  | rolling (error : RollError)
  deriving DecidableEq, Repr

inductive Stage
  | lexing
  | parsing
  | rolling
  deriving DecidableEq, Repr

def Stage.text : Stage → String
  | lexing => "lex error"
  | parsing => "parse error"
  | rolling => "roll error"

structure Report where
  stage : Stage
  text : String
  /-- The byte of the line at which it fails, if it has one. -/
  position : Option Nat
  /-- Whether the evaluation is at fault, and not the line. -/
  isDefect : Bool
  deriving DecidableEq, Repr

def LexError.text : LexError → String
  | unexpectedCharacter position character =>
    s!"unexpected character {Text.quoted character} at position {position}"
  | numberTooLarge position digits => s!"number {digits} at position {position} is too large"

namespace Report

def ofLexing (error : LexError) : Report :=
  ⟨.lexing, error.text, some error.position, false⟩

def ofParsing (position : Nat) (expected found : String) : Report :=
  ⟨.parsing, s!"expected {expected} at position {position}, found {found}", some position, false⟩

def ofRolling (kind : RollError.Kind) (detail : String) : Report :=
  ⟨.rolling, s!"{kind}: {detail}", none, kind = .internal⟩

def message (report : Report) : String := report.stage.text ++ " - " ++ report.text

/-- The message, under the line and a caret at the character where it fails. A position that is no
place between characters of the line counts as a column. -/
def describe (line : String) (report : Report) : String :=
  match report.position with
  | none => report.message
  | some position =>
    let column := (Text.column? position line.toList).getD position
    line ++ "\n" ++ String.ofList (List.replicate column ' ') ++ "^\n" ++ report.message

end Report

def Failure.report : Failure → Report
  | lexing error => .ofLexing error
  | parsing error => .ofParsing error.position error.expected.text error.found.text
  | rolling error => .ofRolling error.kind error.detail

def Failure.message (failure : Failure) : String := failure.report.message

end DiceNotation
