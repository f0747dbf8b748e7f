import DiceNotation.Roll.Table

/-!
# Applying modifiers

A modifier works on the live dice of a term, which are those that count, given by their places on
the trail. It gives the dice that are live afterwards.
-/
namespace DiceNotation

/-- Whether a die, given with its face, may come before another when they are ordered by their
faces. -/
def Rank.inOrder (rank : Rank) (die other : Nat × UInt32) : Bool :=
  match rank with
  | .highest => other.2 ≤ die.2
  | .lowest => die.2 ≤ other.2

namespace Roller

variable {σ : Type}

def checkAmount (term : DiceTerm) (amount : UInt32) : Roller σ Unit := do
  if term.count < amount then
    throw (.amountTooLarge term amount)

/-- The live dice ordered by their faces, from the best to the worst. Equal ones stay in the order
of the throws. -/
def ranked (rank : Rank) (live : List Nat) : Roller σ (List Nat) := do
  let faces ← (live.mergeSort (· ≤ ·)).mapM fun die => return (die, ← faceOf die)
  return (faces.mergeSort rank.inOrder).map Prod.fst

/-- Drops some of the live dice; the others keep their order. -/
def dropDice (live dropped : List Nat) : Roller σ (List Nat) := do
  dropped.forM retire
  let gone := Std.HashSet.ofList dropped
  return live.filter fun die => !gone.contains die

def applyKeep (term : DiceTerm) (rank : Rank) (amount : UInt32) (live : List Nat) :
    Roller σ (List Nat) := do
  checkAmount term amount
  let ranking ← ranked rank live
  dropDice live (ranking.drop amount.toNat)

def applyDrop (term : DiceTerm) (rank : Rank) (amount : UInt32) (live : List Nat) :
    Roller σ (List Nat) := do
  checkAmount term amount
  let ranking ← ranked rank live
  dropDice live (ranking.take amount.toNat)

variable [FaceSource σ]

/-- Throws a die in the place of another. -/
def replaceDie (limits : Limits) (node : Nat) (term : DiceTerm) (die : Nat) : Roller σ Nat := do
  retire die
  throwDie limits node term.sides (.reroll die)

/-- Replaces a die until it fails the condition, at most so often, and gives the last one. It is a
failure if that one still passes, unless dice are rerolled only once. -/
def rerollDie (limits : Limits) (node : Nat) (term : DiceTerm) (condition : Condition)
    (once : Bool) : Nat → Nat → Roller σ Nat
  | depth, die => do
    if condition.accepts (← faceOf die) then
      match depth with
      | 0 =>
        if once then return die
        else throw (.endlessReroll term condition limits.rerollDepth)
      | depth + 1 =>
        rerollDie limits node term condition once depth (← replaceDie limits node term die)
    else
      return die

def applyReroll (limits : Limits) (node : Nat) (term : DiceTerm) (condition : Condition)
    (once : Bool) (live : List Nat) : Roller σ (List Nat) := do
  if condition.satisfiable term.sides then
    live.mapM (rerollDie limits node term condition once (limits.rerolls once))
  else
    remark (.skippedReroll condition term)
    return live

/-- Adds a die for as long as the last one passes the condition, at most so often, and gives those
that are added. -/
def explodeDie (limits : Limits) (node : Nat) (term : DiceTerm) (condition : Condition) :
    Nat → Nat → Roller σ (List Nat)
  | depth, die => do
    if condition.accepts (← faceOf die) then
      match depth with
      | 0 => throw (.endlessExplosion term condition limits.rerollDepth)
      | depth + 1 =>
        let added ← throwDie limits node term.sides (.explosion die)
        return added :: (← explodeDie limits node term condition depth added)
    else
      return []

/-- Explodes the dice that are live; those that are added become live after them. -/
def applyExplode (limits : Limits) (node : Nat) (term : DiceTerm) (condition : Condition)
    (live : List Nat) : Roller σ (List Nat) := do
  if condition.satisfiable term.sides then
    let added ← live.mapM (explodeDie limits node term condition limits.rerollDepth)
    return live ++ added.flatten
  else
    remark (.skippedExplosion condition term)
    return live

def applyModifier (limits : Limits) (node : Nat) (term : DiceTerm) (live : List Nat) :
    Modifier → Roller σ (List Nat)
  | .keep rank amount => applyKeep term rank amount live
  | .drop rank amount => applyDrop term rank amount live
  | .reroll condition => applyReroll limits node term (condition.getD (.isFace 1)) false live
  | .rerollOnce condition => applyReroll limits node term (condition.getD (.isFace 1)) true live
  | .explode condition => applyExplode limits node term (condition.getD (.isFace term.sides)) live

end Roller

end DiceNotation
