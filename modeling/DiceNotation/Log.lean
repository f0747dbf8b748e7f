import DiceNotation.Line

/-!
# The log of a line

What is remarked while a line is rolled: each token but the end of input, the expression, and what
the evaluation remarks on.
-/
namespace DiceNotation

/-- A level includes all that come after it. -/
inductive LogLevel
  | trace
  | debug
  deriving DecidableEq, Repr

def LogLevel.includes : LogLevel → LogLevel → Bool
  | trace, _ => true
  | debug, level => level = debug

structure LogEntry where
  level : LogLevel
  text : String
  deriving DecidableEq, Repr

def Keyword.label : Keyword → String
  | die => "DieOp"
  | keep => "Keep"
  | drop => "Drop"
  | highest => "Highest"
  | lowest => "Lowest"
  | keepHighest => "KeepHighest"
  | keepLowest => "KeepLowest"
  | dropHighest => "DropHighest"
  | dropLowest => "DropLowest"
  | reroll => "Reroll"
  | rerollOnce => "RerollOnce"
  | explode => "Explode"
  | advantage => "Advantage"
  | disadvantage => "Disadvantage"

def Comparison.label : Comparison → String
  | equal => "Equal"
  | notEqual => "NotEqual"
  | less => "Less"
  | greater => "Greater"
  | atMost => "LessOrEqual"
  | atLeast => "GreaterOrEqual"

def Operator.label : Operator → String
  | add => "Plus"
  | sub => "Minus"
  | mul => "Star"
  | div => "Slash"

/-- How the log names a lexeme. -/
def Lexeme.label : Lexeme → String
  | number value => s!"Number({value})"
  | keyword spelled => spelled.label
  | percent => "Percent"
  | comparison sign => s!"Compare({sign.label})"
  | operator sign => sign.label
  | leftParen => "LParen"
  | rightParen => "RParen"
  | word text => "Identifier(\"" ++ text ++ "\")"
  | endOfInput => "EndOfInput"

namespace LogEntry

def ofToken (token : Token) : LogEntry :=
  ⟨.trace, s!"lexed {token.lexeme.label} at {token.offset}"⟩

def ofExpression (expression : Expression) : LogEntry := ⟨.debug, s!"parsed {expression}"⟩

/-- A remark, told with the dice that its term has on the trail. -/
def ofRemark (marks : Trail.Marks) (dice : List (Nat × Outcome)) : Remark → LogEntry
  | .skippedReroll condition term =>
    ⟨.debug, s!"skipping reroll {condition} on {term}, no face can match"⟩
  | .skippedExplosion condition term =>
    ⟨.debug, s!"skipping explode {condition} on {term}, no face can match"⟩
  | .rolled node term value =>
    ⟨.debug, s!"rolled {term}: " ++ marks.text (Trail.ofTerm dice node) ++ s!" = {value}"⟩

def ofTable {σ : Type} (table : Table σ) : List LogEntry :=
  let marks := Trail.marks table.trail
  let dice := Trail.dice table.trail
  table.remarks.toList.map (ofRemark marks dice)

end LogEntry

/-- The log of the evaluation of an expression, which a failure cuts short. -/
def Expression.rollLog {σ : Type} [FaceSource σ] (limits : Limits) (expression : Expression)
    (source : σ) : List LogEntry :=
  match expression.rollAt limits source with
  | .ok _ table => LogEntry.ofTable table
  | .error _ table => LogEntry.ofTable table

/-- The log of rolling a line, as far as it gets. -/
def lineLog {σ : Type} [FaceSource σ] (line : String) (source : σ) : List LogEntry :=
  let (tokens, error?) := (Lexer.start .standard line).readAll
  let lexed := (tokens.filter (·.lexeme != .endOfInput)).map LogEntry.ofToken
  match error?, Expression.ofTokens tokens with
  | none, .ok expression =>
    lexed ++ LogEntry.ofExpression expression :: expression.rollLog {} source
  | _, _ => lexed

end DiceNotation
