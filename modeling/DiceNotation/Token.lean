import DiceNotation.Expression
import DiceNotation.Keyword.Table

/-!
# Tokens

A token is a lexeme with the place where it starts in its line.
-/
namespace DiceNotation

inductive Lexeme
  | number (value : Nat)
  | keyword (keyword : Keyword)
  | percent
  | comparison (comparison : Comparison)
  | operator (operator : Operator)
  | leftParen
  | rightParen
  | word (text : String)
  | endOfInput
  deriving DecidableEq, Repr

structure Token where
  lexeme : Lexeme
  /-- The byte of the line at which the token starts. -/
  offset : Nat
  deriving DecidableEq, Repr

namespace Lexeme

/-- How messages name a lexeme. -/
def text : Lexeme → String
  | number value => s!"number {value}"
  | keyword spelled => s!"'{spelled.text}'"
  | percent => "'%'"
  | comparison sign => s!"'{sign.symbol}'"
  | operator sign => s!"'{sign.symbol}'"
  | leftParen => "'('"
  | rightParen => "')'"
  | word text => s!"unknown word '{text}'"
  | endOfInput => "end of input"

instance : ToString Lexeme := ⟨text⟩

/-- The lexeme that a character stands for by itself. -/
def ofChar? : Char → Option Lexeme
  | '<' => some (comparison .less)
  | '>' => some (comparison .greater)
  | '=' => some (comparison .equal)
  | '+' => some (operator .add)
  | '-' => some (operator .sub)
  | '*' => some (operator .mul)
  | '/' => some (operator .div)
  | '(' => some leftParen
  | ')' => some rightParen
  | '!' => some (keyword .explode)
  | '%' => some percent
  | _ => none

/-- The symbol that a text starts with, the longest first, and its length. -/
def symbol? : List Char → Option (Lexeme × Nat)
  | '<' :: '=' :: _ => some (comparison .atMost, 2)
  | '>' :: '=' :: _ => some (comparison .atLeast, 2)
  | '<' :: '>' :: _ => some (comparison .notEqual, 2)
  | character :: _ => (ofChar? character).map (·, 1)
  | [] => none

/-- The lexeme that a text starts with, and its length in characters. A run of digits is one
number; a run of letters is cut after the longest spelling that it starts with, and is one word
when it starts with none. -/
def read? (table : KeywordTable) (text : List Char) : Option (Lexeme × Nat) :=
  match text with
  | [] => none
  | first :: _ =>
    if first.isDigit then
      let digits := text.takeWhile Char.isDigit
      some (number (Nat.ofDigitChars 10 digits 0), digits.length)
    else if first.isAlpha then
      let letters := text.takeWhile Char.isAlpha
      match table.longestPrefix? letters with
      | some (found, length) => some (keyword found, length)
      | none => some (word (String.ofList letters), letters.length)
    else
      symbol? text

theorem symbol?_pos {text : List Char} {lexeme : Lexeme} {length : Nat}
    (h : symbol? text = some (lexeme, length)) : 0 < length := by
  unfold symbol? at h
  split at h <;> simp at h <;> omega

theorem takeWhile_length_pos {p : Char → Bool} {first : Char} {rest : List Char}
    (h : p first = true) : 0 < ((first :: rest).takeWhile p).length := by
  simp [h]

/-- Every lexeme takes at least one character. -/
theorem read?_pos {table : KeywordTable} {text : List Char} {lexeme : Lexeme} {length : Nat}
    (h : read? table text = some (lexeme, length)) : 0 < length := by
  unfold read? at h
  dsimp only at h
  split at h
  · simp at h
  · split at h
    · rename_i digit
      simp only [Option.some.injEq, Prod.mk.injEq] at h
      exact h.2 ▸ takeWhile_length_pos digit
    · split at h
      · rename_i letter
        split at h
        · rename_i found
          simp only [Option.some.injEq, Prod.mk.injEq] at h
          exact h.2 ▸ KeywordTable.longestPrefix?_pos found
        · simp only [Option.some.injEq, Prod.mk.injEq] at h
          exact h.2 ▸ takeWhile_length_pos letter
      · exact symbol?_pos h

end Lexeme

end DiceNotation
