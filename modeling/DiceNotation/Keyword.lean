/-!
# Keywords

The words of dice notation, whatever they are spelled like.
-/
namespace DiceNotation

inductive Keyword
  | die
  | keep
  | drop
  | highest
  | lowest
  | keepHighest
  | keepLowest
  | dropHighest
  | dropLowest
  | reroll
  | rerollOnce
  | explode
  | advantage
  | disadvantage
  deriving DecidableEq, Repr

namespace Keyword

/-- The spelling that messages use. -/
def text : Keyword → String
  | die => "d"
  | keep => "keep"
  | drop => "drop"
  | highest => "highest"
  | lowest => "lowest"
  | keepHighest => "kh"
  | keepLowest => "kl"
  | dropHighest => "dh"
  | dropLowest => "dl"
  | reroll => "reroll"
  | rerollOnce => "rerollonce"
  | explode => "explode"
  | advantage => "adv"
  | disadvantage => "dis"

end Keyword

end DiceNotation
