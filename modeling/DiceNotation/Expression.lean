import DiceNotation.Condition

/-!
# Dice expressions

The tree that a line of notation stands for, and its canonical text. Parentheses are nodes of the
tree, so the text of a tree adds none.
-/
namespace DiceNotation

inductive Rank
  | highest
  | lowest
  deriving DecidableEq, Repr

/-- What happens to the dice of a term after they are thrown, in the order it is written. -/
inductive Modifier
  /-- Keeps only the best dice of a rank. -/
  | keep (rank : Rank) (amount : UInt32)
  /-- Drops the best dice of a rank. -/
  | drop (rank : Rank) (amount : UInt32)
  /-- Replaces a die for as long as it passes the condition; without one, as long as it shows 1. -/
  | reroll (condition : Option Condition)
  /-- Replaces a die at most once. -/
  | rerollOnce (condition : Option Condition)
  /-- Adds a die for each that passes the condition; without one, for each that shows the highest
  face. Added dice can explode too. -/
  | explode (condition : Option Condition)
  deriving DecidableEq, Repr

structure DiceTerm where
  count : UInt32
  sides : UInt32
  modifiers : List Modifier
  deriving DecidableEq, Repr

inductive Operator
  | add
  | sub
  | mul
  | div
  deriving DecidableEq, Repr

inductive Expression
  | literal (value : Int64)
  | dice (term : DiceTerm)
  | binary (operator : Operator) (left right : Expression)
  | group (inner : Expression)
  | negate (inner : Expression)
  deriving DecidableEq, Repr

def Rank.letter : Rank → String
  | .highest => "h"
  | .lowest => "l"

def Modifier.text : Modifier → String
  | .keep rank amount => "k" ++ rank.letter ++ toString amount
  | .drop rank amount => "d" ++ rank.letter ++ toString amount
  | .reroll condition => "r" ++ (condition.map Condition.text).getD ""
  | .rerollOnce condition => "ro" ++ (condition.map Condition.text).getD ""
  | .explode condition => "!" ++ (condition.map Condition.text).getD ""

def DiceTerm.text (term : DiceTerm) : String :=
  s!"{term.count}d{term.sides}" ++ String.join (term.modifiers.map Modifier.text)

instance : ToString DiceTerm := ⟨DiceTerm.text⟩

def Operator.symbol : Operator → String
  | .add => "+"
  | .sub => "-"
  | .mul => "*"
  | .div => "/"

instance : ToString Operator := ⟨Operator.symbol⟩

namespace Expression

def text : Expression → String
  | literal value => toString value
  | dice term => term.text
  | binary operator left right => left.text ++ s!" {operator} " ++ right.text
  | group inner => "(" ++ inner.text ++ ")"
  | negate inner => "-" ++ inner.text

instance : ToString Expression := ⟨text⟩

/-- The number of nodes, by recursion on the tree. -/
def size : Expression → Nat
  | literal _ => 1
  | dice _ => 1
  | binary _ left right => left.size + right.size + 1
  | group inner => inner.size + 1
  | negate inner => inner.size + 1

theorem size_pos (expression : Expression) : 0 < expression.size := by
  cases expression <;> simp [size]

/-- The number of nodes of several trees. -/
def sizes : List Expression → Nat
  | [] => 0
  | first :: rest => first.size + sizes rest

/-- Counts the nodes of pending trees one by one, so that a deep tree needs no deep recursion. -/
def countPending (count : Nat) : List Expression → Nat
  | [] => count
  | literal _ :: pending => countPending (count + 1) pending
  | dice _ :: pending => countPending (count + 1) pending
  | binary _ left right :: pending => countPending (count + 1) (left :: right :: pending)
  | group inner :: pending => countPending (count + 1) (inner :: pending)
  | negate inner :: pending => countPending (count + 1) (inner :: pending)
termination_by pending => sizes pending
decreasing_by all_goals (simp only [sizes, size]; omega)

def nodeCount (expression : Expression) : Nat := countPending 0 [expression]

theorem countPending_eq (count : Nat) (pending : List Expression) :
    countPending count pending = count + sizes pending := by
  fun_induction countPending count pending <;> simp_all [sizes, size] <;> omega

theorem nodeCount_eq_size (expression : Expression) : expression.nodeCount = expression.size := by
  simp [nodeCount, countPending_eq, sizes]

end Expression

end DiceNotation
