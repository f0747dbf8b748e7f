import DiceNotation.Token

/-!
# The grammar of dice notation

Which lexemes stand for which expression, rule by rule and without any order of reading. A number
in a rule is the value of its slot, so a number that does not fit its slot derives nothing.
-/
namespace DiceNotation

/-- The largest number of groups and minus signs around one leaf. -/
def Expression.depth : Expression → Nat
  | literal _ => 0
  | dice _ => 0
  | binary _ left right => max left.depth right.depth
  | group inner => inner.depth + 1
  | negate inner => inner.depth + 1

def Rank.keyword : Rank → Keyword
  | .highest => .highest
  | .lowest => .lowest

def Rank.keepKeyword : Rank → Keyword
  | .highest => .keepHighest
  | .lowest => .keepLowest

def Rank.dropKeyword : Rank → Keyword
  | .highest => .dropHighest
  | .lowest => .dropLowest

def Operator.additive : Operator → Bool
  | .add | .sub => true
  | .mul | .div => false

namespace Grammar
open Lexeme

inductive IsCondition : List Lexeme → Condition → Prop
  | compared {number : Nat} {value : Int64} (comparison : Comparison)
      (fits : value.toInt = number) :
      IsCondition [.comparison comparison, .number number] ⟨comparison, value⟩
  | bare {number : Nat} {value : Int64} (fits : value.toInt = number) :
      IsCondition [.number number] ⟨.equal, value⟩

/-- What stands there, or nothing does. -/
inductive OrNone {α : Type} (form : List Lexeme → α → Prop) : List Lexeme → Option α → Prop
  | absent : OrNone form [] none
  | present {text : List Lexeme} {value : α} (reads : form text value) :
      OrNone form text (some value)

inductive IsModifier : List Lexeme → Modifier → Prop
  | keep {number : Nat} {amount : UInt32} (fits : amount.toNat = number) :
      IsModifier [keyword .keep, .number number] (.keep .highest amount)
  | keepRanked {number : Nat} {amount : UInt32} (rank : Rank) (fits : amount.toNat = number) :
      IsModifier [keyword .keep, keyword rank.keyword, .number number] (.keep rank amount)
  | keepShort {number : Nat} {amount : UInt32} (rank : Rank) (fits : amount.toNat = number) :
      IsModifier [keyword rank.keepKeyword, .number number] (.keep rank amount)
  | drop {number : Nat} {amount : UInt32} (fits : amount.toNat = number) :
      IsModifier [keyword .drop, .number number] (.drop .lowest amount)
  | dropRanked {number : Nat} {amount : UInt32} (rank : Rank) (fits : amount.toNat = number) :
      IsModifier [keyword .drop, keyword rank.keyword, .number number] (.drop rank amount)
  | dropShort {number : Nat} {amount : UInt32} (rank : Rank) (fits : amount.toNat = number) :
      IsModifier [keyword rank.dropKeyword, .number number] (.drop rank amount)
  | reroll {text : List Lexeme} {condition : Option Condition}
      (reads : OrNone IsCondition text condition) :
      IsModifier (keyword .reroll :: text) (.reroll condition)
  | rerollOnce {text : List Lexeme} {condition : Option Condition}
      (reads : OrNone IsCondition text condition) :
      IsModifier (keyword .rerollOnce :: text) (.rerollOnce condition)
  | explode {text : List Lexeme} {condition : Option Condition}
      (reads : OrNone IsCondition text condition) :
      IsModifier (keyword .explode :: text) (.explode condition)
  | advantage : IsModifier [keyword .advantage] (.keep .highest 1)
  | disadvantage : IsModifier [keyword .disadvantage] (.keep .lowest 1)

inductive AreModifiers : List Lexeme → List Modifier → Prop
  | nil : AreModifiers [] []
  | cons {first rest : List Lexeme} {modifier : Modifier} {modifiers : List Modifier}
      (head : IsModifier first modifier) (tail : AreModifiers rest modifiers) :
      AreModifiers (first ++ rest) (modifier :: modifiers)

inductive IsCount : List Lexeme → UInt32 → Prop
  | one : IsCount [] 1
  | number {number : Nat} {count : UInt32} (positive : 0 < number)
      (fits : count.toNat = number) : IsCount [.number number] count

inductive IsSides : List Lexeme → UInt32 → Prop
  | percent : IsSides [.percent] 100
  | number {number : Nat} {sides : UInt32} (fits : sides.toNat = number) :
      IsSides [.number number] sides

inductive IsTerm : List Lexeme → DiceTerm → Prop
  | mk {first second third : List Lexeme} {count sides : UInt32} {modifiers : List Modifier}
      (counts : IsCount first count) (faces : IsSides second sides)
      (changes : AreModifiers third modifiers) :
      IsTerm (first ++ keyword .die :: second ++ third) ⟨count, sides, modifiers⟩

/-- The levels of expressions, from the one that binds least. -/
inductive Level
  | sum
  | product
  | factor
  deriving DecidableEq, Repr

/-- The lexemes that stand for an expression at a level. Operators group to the left, as only the
left operand is of the operator's own level. -/
inductive Derives : Level → List Lexeme → Expression → Prop
  | product {text : List Lexeme} {expression : Expression}
      (inner : Derives .product text expression) : Derives .sum text expression
  | factor {text : List Lexeme} {expression : Expression}
      (inner : Derives .factor text expression) : Derives .product text expression
  | additive {first second : List Lexeme} {left right : Expression} (sign : Operator)
      (kind : sign.additive = true) (before : Derives .sum first left)
      (after : Derives .product second right) :
      Derives .sum (first ++ operator sign :: second) (.binary sign left right)
  | multiplicative {first second : List Lexeme} {left right : Expression} (sign : Operator)
      (kind : sign.additive = false) (before : Derives .product first left)
      (after : Derives .factor second right) :
      Derives .product (first ++ operator sign :: second) (.binary sign left right)
  | negate {text : List Lexeme} {inner : Expression} (within : Derives .factor text inner) :
      Derives .factor (operator .sub :: text) (.negate inner)
  | dice {text : List Lexeme} {term : DiceTerm} (reads : IsTerm text term) :
      Derives .factor text (.dice term)
  | literal {number : Nat} {value : Int64} (fits : value.toInt = number) :
      Derives .factor [.number number] (.literal value)
  | group {text : List Lexeme} {inner : Expression} (within : Derives .sum text inner) :
      Derives .factor (leftParen :: text ++ [rightParen]) (.group inner)

end Grammar

end DiceNotation
