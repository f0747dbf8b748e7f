import DiceNotation.Roll.Modifier

/-!
# Rolling an expression

Every node of an expression has a value. The nodes are numbered in the order of visits, and their
values are entered as they become known. Arithmetic is exact, and a value that no 64-bit integer
holds is a failure.
-/
namespace DiceNotation

/-- The integer as a 64-bit one, if it is in range. -/
def narrow? (value : Int) : Option Int64 :=
  if Int64.minValue.toInt ≤ value ∧ value ≤ Int64.maxValue.toInt then some (Int64.ofInt value)
  else none

theorem narrow?_eq_some_iff {exact : Int} {value : Int64} :
    narrow? exact = some value ↔ value.toInt = exact := by
  have hlow := value.le_toInt
  have hhigh := value.toInt_lt
  unfold narrow?
  rw [Int64.toInt_minValue, Int64.toInt_maxValue]
  split
  · rename_i h
    rw [Option.some.injEq]
    constructor
    · rintro rfl
      exact Int64.toInt_ofInt_of_le (by omega) (by omega)
    · rintro rfl
      simp
  · simp only [reduceCtorEq, false_iff]
    omega

theorem narrow?_eq_none_iff {exact : Int} :
    narrow? exact = none ↔ exact < Int64.minValue.toInt ∨ Int64.maxValue.toInt < exact := by
  unfold narrow?
  split
  · simp only [reduceCtorEq, false_iff]
    omega
  · simp only [true_iff]
    omega

/-- The exact value of an operator, which divides toward zero and not by zero. -/
def Operator.exact? : Operator → Int → Int → Option Int
  | .add, left, right => some (left + right)
  | .sub, left, right => some (left - right)
  | .mul, left, right => some (left * right)
  | .div, left, right => if right = 0 then none else some (left.tdiv right)

def Operator.apply (operator : Operator) (left right : Int64) : Except RollError Int64 :=
  match operator.exact? left.toInt right.toInt with
  | none => .error (.divisionByZero left)
  | some value =>
    match narrow? value with
    | none => .error (.operatorOverflow operator left right)
    | some value => .ok value

def negated (value : Int64) : Except RollError Int64 :=
  match narrow? (-value.toInt) with
  | none => .error (.negationOverflow value)
  | some value => .ok value

structure Evaluation where
  total : Int64
  trail : Trail
  subTotals : SubTotals
  deriving DecidableEq, Repr

namespace Roller

variable {σ : Type}

def settle {α : Type} : Except RollError α → Roller σ α
  | .ok value => return value
  | .error error => throw error

/-- Adds the face of a die to the sum of those before it. -/
def addFace (term : DiceTerm) (value : Int64) (die : Nat) : Roller σ Int64 := do
  match narrow? (value.toInt + (← faceOf die).toNat) with
  | some value => return value
  | none => throw (.sumOverflow term)

def sumOf (term : DiceTerm) (live : List Nat) : Roller σ Int64 :=
  live.foldlM (addFace term) 0

variable [FaceSource σ]

/-- Throws the dice of a term, applies its modifiers in order and adds up the dice that are left. -/
def rollTerm (limits : Limits) (node : Nat) (term : DiceTerm) : Roller σ Int64 := do
  if term.count = 0 then
    throw (.noDice term)
  if limits.dice < term.count.toNat then
    throw (.termTooLarge term limits.dice)
  let start := (← get).trail.size
  throwDice limits node term.sides term.count.toNat
  let thrown := List.range' start term.count.toNat
  let live ← term.modifiers.foldlM (applyModifier limits node term) thrown
  let value ← sumOf term live
  remark (.rolled node term value)
  return value

/-- Rolls a node with all below it, and gives its value. -/
def rollNodes (limits : Limits) : Expression → Roller σ Int64
  | .literal value => do
    let node ← visit limits
    enter node value
  | .dice term => do
    let node ← visit limits
    enter node (← rollTerm limits node term)
  | .binary operator left right => do
    let node ← visit limits
    let left ← rollNodes limits left
    let right ← rollNodes limits right
    enter node (← settle (operator.apply left right))
  | .group inner => do
    let node ← visit limits
    enter node (← rollNodes limits inner)
  | .negate inner => do
    let node ← visit limits
    let inner ← rollNodes limits inner
    enter node (← settle (negated inner))

def rollExpression (limits : Limits) (expression : Expression) : Roller σ Evaluation := do
  if limits.nodes < expression.nodeCount then
    throw (.tooManyNodes expression.nodeCount limits.nodes)
  let total ← rollNodes limits expression
  let table ← get
  return ⟨total, table.trail, table.subTotals⟩

end Roller

/-- Rolls an expression at a fresh table. -/
def Expression.rollAt {σ : Type} [FaceSource σ] (limits : Limits) (expression : Expression)
    (source : σ) : EStateM.Result RollError (Table σ) Evaluation :=
  Roller.rollExpression limits expression (.fresh source)

/-- The outcome of rolling an expression, and the source afterwards. -/
def Expression.roll {σ : Type} [FaceSource σ] (limits : Limits) (expression : Expression)
    (source : σ) : Except RollError Evaluation × σ :=
  match expression.rollAt limits source with
  | .ok evaluation table => (.ok evaluation, table.source)
  | .error error table => (.error error, table.source)

namespace Evaluation

def subTotal? (evaluation : Evaluation) (node : Nat) : Option Int64 :=
  evaluation.subTotals.get? node

end Evaluation

end DiceNotation
