/-!
# Conditions on a face

A comparison with a fixed value, such as `=1` or `>=5`, which a rolled face passes or not.
-/
namespace DiceNotation

inductive Comparison
  | equal
  | notEqual
  | less
  | greater
  | atMost
  | atLeast
  deriving DecidableEq, Repr

namespace Comparison

def symbol : Comparison → String
  | equal => "="
  | notEqual => "<>"
  | less => "<"
  | greater => ">"
  | atMost => "<="
  | atLeast => ">="

def holds : Comparison → Int → Int → Bool
  | equal, a, b => a = b
  | notEqual, a, b => a ≠ b
  | less, a, b => a < b
  | greater, a, b => a > b
  | atMost, a, b => a ≤ b
  | atLeast, a, b => a ≥ b

end Comparison

structure Condition where
  comparison : Comparison
  value : Int64
  deriving DecidableEq, Repr

namespace Condition

/-- The condition that exactly one face passes. -/
def isFace (face : UInt32) : Condition := ⟨.equal, Int64.ofInt face.toNat⟩

def text (condition : Condition) : String :=
  condition.comparison.symbol ++ toString condition.value

instance : ToString Condition := ⟨text⟩

def accepts (condition : Condition) (face : UInt32) : Bool :=
  condition.comparison.holds face.toNat condition.value.toInt

/-- Whether any face of a die can pass, judged from the lowest and the highest face alone. -/
def satisfiable (condition : Condition) (sides : UInt32) : Bool :=
  let value := condition.value.toInt
  let highest : Int := sides.toNat
  match condition.comparison with
  | .equal => 1 ≤ value ∧ value ≤ highest
  | .notEqual => highest > 1 ∨ value ≠ 1
  | .less => value > 1
  | .greater => value < highest
  | .atMost => value ≥ 1
  | .atLeast => value ≤ highest

end Condition

end DiceNotation
