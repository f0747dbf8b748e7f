import Std.Data.HashSet

/-!
# The trail of a roll

Every die that an evaluation throws leaves an outcome on its trail, in the order of the throws. A
die is known by its place on the trail.
-/
namespace DiceNotation

/-- Why a die is thrown. -/
inductive Cause
  | term
  | reroll (die : Nat)
  | explosion (die : Nat)
  deriving DecidableEq, Repr

structure Outcome where
  /-- The node of the dice term that the die belongs to. -/
  term : Nat
  sides : UInt32
  value : UInt32
  /-- Whether the die counts toward the value of its term. -/
  kept : Bool
  /-- The die that this one replaces. -/
  rerolledFrom : Option Nat
  /-- The die whose explosion adds this one. -/
  explodedFrom : Option Nat
  deriving DecidableEq, Repr

abbrev Trail := Array Outcome

namespace Outcome

/-- A die as it is thrown, which counts until a modifier says otherwise. -/
def thrown (term : Nat) (sides value : UInt32) : Cause → Outcome
  | .term => ⟨term, sides, value, true, none, none⟩
  | .reroll die => ⟨term, sides, value, true, some die, none⟩
  | .explosion die => ⟨term, sides, value, true, none, some die⟩

end Outcome

namespace Trail

/-- The outcomes with their places. -/
def dice (trail : Trail) : List (Nat × Outcome) :=
  trail.toList.zipIdx.map fun (outcome, die) => (die, outcome)

def kept (trail : Trail) : List Outcome := trail.toList.filter Outcome.kept

def ofTerm (dice : List (Nat × Outcome)) (term : Nat) : List (Nat × Outcome) :=
  dice.filter fun (_, outcome) => outcome.term = term

/-- The dice of a trail that others replace, and those that others are added by. -/
structure Marks where
  rerolled : Std.HashSet Nat
  exploded : Std.HashSet Nat

def marks (trail : Trail) : Marks where
  rerolled := .ofList (trail.toList.filterMap Outcome.rerolledFrom)
  exploded := .ofList (trail.toList.filterMap Outcome.explodedFrom)

theorem contains_rerolled_marks (trail : Trail) (die : Nat) :
    (marks trail).rerolled.contains die =
      trail.toList.any fun outcome => outcome.rerolledFrom == some die := by
  rw [Bool.eq_iff_iff, List.any_eq_true]
  simp [marks]

theorem contains_exploded_marks (trail : Trail) (die : Nat) :
    (marks trail).exploded.contains die =
      trail.toList.any fun outcome => outcome.explodedFrom == some die := by
  rw [Bool.eq_iff_iff, List.any_eq_true]
  simp [marks]

/-- A die's value, then an exclamation mark if it exploded, then an r if it was rerolled or else a
d if it was dropped. -/
def Marks.die (marks : Marks) (die : Nat) (outcome : Outcome) : String :=
  toString outcome.value ++ (if marks.exploded.contains die then "!" else "") ++
    (if marks.rerolled.contains die then "r" else if outcome.kept then "" else "d")

def Marks.text (marks : Marks) (dice : List (Nat × Outcome)) : String :=
  "[" ++ ", ".intercalate (dice.map fun (die, outcome) => marks.die die outcome) ++ "]"

end Trail

end DiceNotation
