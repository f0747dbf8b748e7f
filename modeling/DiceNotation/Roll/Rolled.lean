import DiceNotation.Roll.Evaluation

/-!
# Showing a roll

A rolled expression is shown as its canonical text with the dice of each dice term in brackets
behind it, and the total.
-/
namespace DiceNotation

structure Rolled where
  expression : Expression
  evaluation : Evaluation
  deriving DecidableEq, Repr

namespace Rolled

/-- The number of the next node in the order of visits. -/
def nextNode : StateM Nat Nat := modifyGet fun node => (node, node + 1)

/-- The text of an expression in which `dice` gives the text for the dice of a node. -/
def annotated (dice : Nat → String) : Expression → StateM Nat String
  | .literal value => do
    let _ ← nextNode
    return toString value
  | .dice term => do
    let node ← nextNode
    return term.text ++ " " ++ dice node
  | .binary operator left right => do
    let _ ← nextNode
    let left ← annotated dice left
    let right ← annotated dice right
    return left ++ s!" {operator} " ++ right
  | .group inner => do
    let _ ← nextNode
    return "(" ++ (← annotated dice inner) ++ ")"
  | .negate inner => do
    let _ ← nextNode
    return "-" ++ (← annotated dice inner)

def text (rolled : Rolled) : String :=
  let marks := Trail.marks rolled.evaluation.trail
  let dice := Trail.dice rolled.evaluation.trail
  let shown := annotated (fun node => marks.text (Trail.ofTerm dice node)) rolled.expression
  (shown.run 0).1 ++ s!" = {rolled.evaluation.total}"

instance : ToString Rolled := ⟨text⟩

end Rolled

end DiceNotation
