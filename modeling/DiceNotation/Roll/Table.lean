import DiceNotation.Faces
import DiceNotation.Roll.SubTotals
import DiceNotation.Roll.Trail

/-!
# The table at which an expression is rolled

The state of an evaluation, and the few steps by which it changes: visiting a node, entering its
value, throwing a die, looking at a die, and taking one out of the count.
-/
namespace DiceNotation

/-- What an evaluation remarks on while it runs. -/
inductive Remark
  | skippedReroll (condition : Condition) (term : DiceTerm)
  | skippedExplosion (condition : Condition) (term : DiceTerm)
  | rolled (node : Nat) (term : DiceTerm) (value : Int64)
  deriving DecidableEq, Repr

structure Table (σ : Type) where
  source : σ
  trail : Trail
  /-- How many nodes are visited, which is the number of the next one. -/
  nodes : Nat
  subTotals : SubTotals
  /-- How often the stopwatch is read. -/
  readings : Nat
  remarks : Array Remark

def Table.fresh {σ : Type} (source : σ) : Table σ := ⟨source, #[], 0, ∅, 0, #[]⟩

/-- A step of an evaluation; one that fails leaves the table as it is then. -/
abbrev Roller (σ : Type) := EStateM RollError (Table σ)

namespace Roller

variable {σ : Type}

/-- Fails once the stopwatch has reached the time that is allowed. -/
def checkTime (limits : Limits) : Roller σ Unit :=
  match limits.time with
  | none => return ()
  | some budget => do
    let reading := (← get).readings
    modify fun table => { table with readings := table.readings + 1 }
    if budget.allowed.nanoseconds ≤ (budget.elapsed reading).nanoseconds then
      throw (.outOfTime budget.allowed)

/-- The number of the next node in the order of visits: a parent comes before its children, and
the left child before the right one. -/
def visit (limits : Limits) : Roller σ Nat := do
  checkTime limits
  modifyGet fun table => (table.nodes, { table with nodes := table.nodes + 1 })

/-- Enters the value of a node. -/
def enter (node : Nat) (value : Int64) : Roller σ Int64 := do
  modify fun table => { table with subTotals := table.subTotals.insert node value }
  return value

def remark (remark : Remark) : Roller σ Unit :=
  modify fun table => { table with remarks := table.remarks.push remark }

/-- Draws a face and lays the die down at the end of the trail. -/
def layDie [FaceSource σ] (term : Nat) (sides : UInt32) (cause : Cause) : Roller σ Nat :=
  fun table =>
    match FaceSource.answer sides table.source with
    | (.error error, source) => .error error { table with source }
    | (.ok face, source) =>
      .ok table.trail.size { table with
        source := source, trail := table.trail.push (.thrown term sides face cause) }

/-- Throws one die, if the budget has one left, and gives its place on the trail. -/
def throwDie [FaceSource σ] (limits : Limits) (term : Nat) (sides : UInt32) (cause : Cause) :
    Roller σ Nat := do
  if limits.dice ≤ (← get).trail.size then
    throw (.tooManyDice limits.dice)
  checkTime limits
  layDie term sides cause

def throwDice [FaceSource σ] (limits : Limits) (term : Nat) (sides : UInt32) : Nat → Roller σ Unit
  | 0 => return ()
  | count + 1 => do
    let _ ← throwDie limits term sides .term
    throwDice limits term sides count

def faceOf (die : Nat) : Roller σ UInt32 := do
  let trail := (← get).trail
  match trail[die]? with
  | some outcome => return outcome.value
  | none => throw (.missingDie die trail.size)

/-- Takes a die out of the count. -/
def retire (die : Nat) : Roller σ Unit := do
  let size := (← get).trail.size
  if die < size then
    modify fun table =>
      { table with trail := table.trail.modify die fun outcome => { outcome with kept := false } }
  else
    throw (.missingDie die size)

end Roller

end DiceNotation
