import DiceNotation.Token

/-!
# From tokens to expressions

Addition and subtraction bind less than multiplication and division, and all four group to the
left; minus signs, parentheses and dice terms bind tightest. A tree has at most `maxNodes` nodes
and nests at most `maxNesting` factors deep. Each function reads from the lexemes before the end of
input; what it rejects is the first of those it leaves.
-/
namespace DiceNotation

/-- What a line would need at the place where it is rejected. -/
inductive Expected
  | factor
  | sides
  | amount
  | faceValue
  | rightParen
  | operatorOrEnd
  | diceBeforeModifier
  | keepOrDropBefore
  | positiveCount
  | smallerCount
  | smallerSides
  | smallerAmount
  | smallerLiteral
  | smallerFaceValue
  | lessNesting
  | fewerNodes
  deriving DecidableEq, Repr

structure ParseError where
  position : Nat
  expected : Expected
  found : Lexeme
  deriving DecidableEq, Repr

namespace Parser

def maxNesting : Nat := 128

def maxNodes : Nat := 10000

/-- The largest count, number of sides or amount. -/
def maxWord : Nat := 4294967295

/-- The largest literal or face value. -/
def maxLiteral : Nat := 9223372036854775807

end Parser

def Expected.text : Expected → String
  | factor => "a number, dice term or '('"
  | sides => "a number of sides or '%'"
  | amount => "a number of dice"
  | faceValue => "a face value"
  | rightParen => "')'"
  | operatorOrEnd => "an operator or end of input"
  | diceBeforeModifier => "a dice term before the modifier"
  | keepOrDropBefore => "'keep' or 'drop' before it"
  | positiveCount => "a die count of at least 1"
  | smallerCount => s!"a die count no larger than {Parser.maxWord}"
  | smallerSides => s!"a side count no larger than {Parser.maxWord}"
  | smallerAmount => s!"a number of dice no larger than {Parser.maxWord}"
  | smallerLiteral => s!"a number no larger than {Parser.maxLiteral}"
  | smallerFaceValue => s!"a face value no larger than {Parser.maxLiteral}"
  | lessNesting => "an expression nested less deeply"
  | fewerNodes => s!"an expression of at most {Parser.maxNodes} nodes"

instance : ToString Expected := ⟨Expected.text⟩

namespace Parser

/-- What is left to read, and how many nodes the tree may still get. -/
structure Pending where
  rest : List Lexeme
  room : Nat
  deriving DecidableEq, Repr

/-- The first lexeme of the rest, or the end of input when there is none, is not what is
expected. -/
structure Rejection where
  expected : Expected
  rest : List Lexeme
  deriving DecidableEq, Repr

end Parser

abbrev Parser := StateT Parser.Pending (Except Parser.Rejection)

namespace Parser

def reject {α : Type} (expected : Expected) : Parser α :=
  fun pending => .error ⟨expected, pending.rest⟩

def peek : Parser (Option Lexeme) :=
  fun pending => .ok (pending.rest.head?, pending)

def advance : Parser Unit :=
  fun pending => .ok ((), { pending with rest := pending.rest.tail })

/-- Makes room for a node that is about to be built. -/
def addNode : Parser Unit :=
  fun pending =>
    match pending.room with
    | 0 => .error ⟨.fewerNodes, pending.rest⟩
    | room + 1 => .ok ((), { pending with room := room })

def word? (number : Nat) : Option UInt32 :=
  if number ≤ maxWord then some (UInt32.ofNat number) else none

def literal? (number : Nat) : Option Int64 :=
  if number ≤ maxLiteral then some (Int64.ofNat number) else none

theorem word?_eq_some_iff {number : Nat} {word : UInt32} :
    word? number = some word ↔ word.toNat = number := by
  have := word.toNat_lt
  unfold word? maxWord
  split
  · rename_i h
    rw [Option.some.injEq]
    constructor
    · rintro rfl
      exact UInt32.toNat_ofNat_of_lt' (by rw [UInt32.size]; omega)
    · rintro rfl
      simp
  · simp only [reduceCtorEq, false_iff]
    omega

theorem literal?_eq_some_iff {number : Nat} {value : Int64} :
    literal? number = some value ↔ value.toInt = number := by
  have hlow := value.le_toInt
  have hhigh := value.toInt_lt
  unfold literal? maxLiteral
  split
  · rename_i h
    rw [Option.some.injEq]
    constructor
    · rintro rfl
      exact Int64.toInt_ofNat_of_lt (by omega)
    · intro h
      rw [← Int64.toInt_inj, h]
      exact Int64.toInt_ofNat_of_lt (by omega)
  · simp only [reduceCtorEq, false_iff]
    omega

/-- Takes the number that comes next if it fits its slot. -/
def takeNumber {α : Type} (fit? : Nat → Option α) (expected : Expected) (number : Nat) :
    Parser α :=
  match fit? number with
  | some value => do
    advance
    return value
  | none => reject expected

def amount : Parser UInt32 := do
  match ← peek with
  | some (.number number) => takeNumber word? .smallerAmount number
  | _ => reject .amount

def faceValue (comparison : Comparison) : Parser Condition := do
  match ← peek with
  | some (.number number) => return ⟨comparison, ← takeNumber literal? .smallerFaceValue number⟩
  | _ => reject .faceValue

/-- A comparison with a face value; a bare number is a comparison for equality. -/
def condition? : Parser (Option Condition) := do
  match ← peek with
  | some (.comparison comparison) =>
    advance
    return some (← faceValue comparison)
  | some (.number _) => return some (← faceValue .equal)
  | _ => return none

def rankOr (default : Rank) : Parser Rank := do
  match ← peek with
  | some (.keyword .highest) =>
    advance
    return .highest
  | some (.keyword .lowest) =>
    advance
    return .lowest
  | _ => return default

/-- The rest of a modifier after its keyword. A rank word is no modifier by itself. -/
def modifierBody? : Keyword → Option (Parser Modifier)
  | .keep => some do return .keep (← rankOr .highest) (← amount)
  | .drop => some do return .drop (← rankOr .lowest) (← amount)
  | .keepHighest => some do return .keep .highest (← amount)
  | .keepLowest => some do return .keep .lowest (← amount)
  | .dropHighest => some do return .drop .highest (← amount)
  | .dropLowest => some do return .drop .lowest (← amount)
  | .reroll => some do return .reroll (← condition?)
  | .rerollOnce => some do return .rerollOnce (← condition?)
  | .explode => some do return .explode (← condition?)
  | .advantage => some do return .keep .highest 1
  | .disadvantage => some do return .keep .lowest 1
  | .die | .highest | .lowest => none

def modifier? : Parser (Option Modifier) := do
  match ← peek with
  | some (.keyword .die) => return none
  | some (.keyword keyword) =>
    match modifierBody? keyword with
    | some body =>
      advance
      return some (← body)
    | none => reject .keepOrDropBefore
  | _ => return none

/-- At most so many modifiers. -/
def modifiersUpTo : Nat → Parser (List Modifier)
  | 0 => return []
  | most + 1 => do
    match ← modifier? with
    | none => return []
    | some modifier => return modifier :: (← modifiersUpTo most)

/-- All modifiers that come next: each takes a lexeme, so there are no more than lexemes left. -/
def modifiers : Parser (List Modifier) := do
  modifiersUpTo (← get).rest.length

def sides : Parser UInt32 := do
  match ← peek with
  | some (.number number) => takeNumber word? .smallerSides number
  | some .percent =>
    advance
    return 100
  | _ => reject .sides

/-- A dice term from its die letter on. -/
def dice (count : UInt32) : Parser Expression := do
  addNode
  advance
  let sides ← sides
  return .dice ⟨count, sides, ← modifiers⟩

def rightParen : Parser Unit := do
  match ← peek with
  | some .rightParen => advance
  | _ => reject .rightParen

def additive? : Lexeme → Option Operator
  | .operator .add => some .add
  | .operator .sub => some .sub
  | _ => none

def multiplicative? : Lexeme → Option Operator
  | .operator .mul => some .mul
  | .operator .div => some .div
  | _ => none

/-- At most so many more operands of a chain that starts with `left`. -/
def chainUpTo (operator? : Lexeme → Option Operator) (operand : Parser Expression) (most : Nat)
    (left : Expression) : Parser Expression := do
  match (← peek).bind operator? with
  | none => return left
  | some operator =>
    advance
    addNode
    match most with
    | 0 => reject .fewerNodes
    | most + 1 =>
      let right ← operand
      chainUpTo operator? operand most (.binary operator left right)

/-- Operands joined to the left: each operator takes a node, so there are no more than room. -/
def chain (operator? : Lexeme → Option Operator) (operand : Parser Expression) :
    Parser Expression := do
  let first ← operand
  chainUpTo operator? operand (← get).room first

/-- A sum of products of factors. -/
def sum (factor : Parser Expression) : Parser Expression :=
  chain additive? (chain multiplicative? factor)

/-- A factor that nests at most so many factors, itself included. -/
def factor : Nat → Parser Expression
  | 0 => reject .lessNesting
  | levels + 1 => do
    match (← get).rest with
    | .operator .sub :: _ =>
      addNode
      advance
      return .negate (← factor levels)
    | .leftParen :: _ =>
      addNode
      advance
      let inner ← sum (factor levels)
      rightParen
      return .group inner
    | .keyword .die :: _ => dice 1
    | .number number :: .keyword .die :: _ =>
      if number = 0 then
        reject .positiveCount
      else
        dice (← takeNumber word? .smallerCount number)
    | .number number :: _ =>
      match literal? number with
      | none => reject .smallerLiteral
      | some value =>
        addNode
        advance
        return .literal value
    | .keyword _ :: _ => reject .diceBeforeModifier
    | _ => reject .factor

/-- A whole line. -/
def line : Parser Expression := do
  let expression ← sum (factor maxNesting)
  match ← peek with
  | none => return expression
  | some (.keyword .die) => reject .operatorOrEnd
  | some (.keyword _) => reject .diceBeforeModifier
  | some _ => reject .operatorOrEnd

/-- The lexemes before the first end of input. -/
def body (tokens : List Token) : List Lexeme :=
  (tokens.map Token.lexeme).takeWhile (· != .endOfInput)

/-- Where the token of an index starts; past the last token, where that one starts. -/
def positionAt (tokens : List Token) (index : Nat) : Nat :=
  match tokens[index]? with
  | some token => token.offset
  | none => (tokens.getLast?.map Token.offset).getD 0

def Rejection.toError (tokens : List Token) (rejection : Rejection) : ParseError where
  position := positionAt tokens ((body tokens).length - rejection.rest.length)
  expected := rejection.expected
  found := rejection.rest.headD .endOfInput

end Parser

/-- The expression of a line's tokens. What follows the first end of input is ignored, and tokens
without one count as ended. -/
def Expression.ofTokens (tokens : List Token) : Except ParseError Expression :=
  match Parser.line ⟨Parser.body tokens, Parser.maxNodes⟩ with
  | .ok (expression, _) => .ok expression
  | .error rejection => .error (rejection.toError tokens)

end DiceNotation
