/-!
# Limits on a roll

Bounds on the work that one evaluation may do. The defaults set no time budget.
-/
namespace DiceNotation

structure Duration where
  nanoseconds : Nat
  deriving DecidableEq, Repr

namespace Duration

/-- The digits after the point for a part of a unit, without trailing zeros. -/
def fraction (part unit : Nat) : String :=
  let digits := Nat.toDigits 10 (unit + part)
  let shown := (digits.drop 1).reverse.dropWhile (· = '0') |>.reverse
  if shown.isEmpty then "" else "." ++ String.ofList shown

def inUnits (duration : Duration) (unit : Nat) (name : String) : String :=
  toString (duration.nanoseconds / unit) ++ fraction (duration.nanoseconds % unit) unit ++ name

/-- In the largest unit, up to seconds, of which the duration holds at least one. -/
def text (duration : Duration) : String :=
  if 1000000000 ≤ duration.nanoseconds then duration.inUnits 1000000000 "s"
  else if 1000000 ≤ duration.nanoseconds then duration.inUnits 1000000 "ms"
  else if 1000 ≤ duration.nanoseconds then duration.inUnits 1000 "µs"
  else duration.inUnits 1 "ns"

instance : ToString Duration := ⟨text⟩

end Duration

structure TimeBudget where
  allowed : Duration
  /-- What a stopwatch that starts with the evaluation shows when it is read for the n-th time. -/
  elapsed : Nat → Duration

structure Limits where
  /-- How often one die may be rerolled, or keep exploding. -/
  rerollDepth : Nat := 100
  /-- Dice thrown in the whole expression, rerolls and explosions included. -/
  dice : Nat := 10000
  nodes : Nat := 1000
  time : Option TimeBudget := none

/-- How often a die may be rerolled. -/
def Limits.rerolls (limits : Limits) (once : Bool) : Nat :=
  if once then 1 else limits.rerollDepth

end DiceNotation
