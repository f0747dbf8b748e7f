import DiceNotation.Expression
import DiceNotation.Roll.Limits

/-!
# Why a roll fails

Each cause of failure belongs to a kind and is told in a detail text.
-/
namespace DiceNotation

inductive RollError.Kind
  | invalidDieCount
  | invalidDieSides
  | amountExceedsDieCount
  | infiniteReroll
  | divisionByZero
  | arithmeticOverflow
  | budgetExceeded
  | internal
  deriving DecidableEq, Repr

inductive RollError
  | noDice (term : DiceTerm)
  | noSides
  | amountTooLarge (term : DiceTerm) (amount : UInt32)
  | endlessReroll (term : DiceTerm) (condition : Condition) (depth : Nat)
  | endlessExplosion (term : DiceTerm) (condition : Condition) (depth : Nat)
  | divisionByZero (dividend : Int64)
  | sumOverflow (term : DiceTerm)
  | operatorOverflow (operator : Operator) (left right : Int64)
  | negationOverflow (value : Int64)
  | tooManyNodes (nodes limit : Nat)
  | termTooLarge (term : DiceTerm) (limit : Nat)
  | tooManyDice (limit : Nat)
  | outOfTime (allowed : Duration)
  /-- A die that the evaluation itself threw is not in its trail. No input causes this. -/
  | missingDie (die size : Nat)
  /-- The source of faces refuses a die for a reason of its own. -/
  | refused (kind : RollError.Kind) (detail : String)
  deriving DecidableEq, Repr

namespace RollError

def Kind.text : Kind → String
  | invalidDieCount => "invalid die count"
  | invalidDieSides => "invalid die sides"
  | amountExceedsDieCount => "keep/drop count exceeds die count"
  | infiniteReroll => "infinite reroll"
  | divisionByZero => "division by zero"
  | arithmeticOverflow => "arithmetic overflow"
  | budgetExceeded => "budget exceeded"
  | internal => "internal error"

instance : ToString Kind := ⟨Kind.text⟩

def kind : RollError → Kind
  | noDice _ => .invalidDieCount
  | noSides => .invalidDieSides
  | amountTooLarge _ _ => .amountExceedsDieCount
  | endlessReroll _ _ _ => .infiniteReroll
  | endlessExplosion _ _ _ => .infiniteReroll
  | divisionByZero _ => .divisionByZero
  | sumOverflow _ => .arithmeticOverflow
  | operatorOverflow _ _ _ => .arithmeticOverflow
  | negationOverflow _ => .arithmeticOverflow
  | tooManyNodes _ _ => .budgetExceeded
  | termTooLarge _ _ => .budgetExceeded
  | tooManyDice _ => .budgetExceeded
  | outOfTime _ => .budgetExceeded
  | missingDie _ _ => .internal
  | refused kind _ => kind

def detail : RollError → String
  | noDice term => s!"{term} needs at least 1 die"
  | noSides => "a die needs at least 1 side, got 0"
  | amountTooLarge term amount =>
    s!"{term} cannot keep or drop {amount} of {term.count} dice"
  | endlessReroll term condition depth =>
    s!"{term} still matched {condition} after {depth} rerolls"
  | endlessExplosion term condition depth =>
    s!"{term} kept exploding on {condition} past {depth} dice"
  | divisionByZero dividend => s!"{dividend} / 0"
  | sumOverflow term => s!"sum of {term}"
  | operatorOverflow operator left right => s!"{left} {operator} {right}"
  | negationOverflow value => s!"-({value})"
  | tooManyNodes nodes limit => s!"expression has {nodes} nodes, the limit is {limit}"
  | termTooLarge term limit => s!"{term} rolls {term.count} dice, the limit is {limit}"
  | tooManyDice limit => s!"more than {limit} dice rolled"
  | outOfTime allowed => s!"evaluation took longer than {allowed}"
  | missingDie die size => s!"roll {die} is missing from a trail of {size}"
  | refused _ detail => detail

end RollError

end DiceNotation
