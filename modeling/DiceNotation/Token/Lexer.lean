import DiceNotation.Token

/-!
# Reading a line into tokens

A lexer holds what is left of a line. `nextToken` takes one token off it and may be asked again
after the end or after an error; `next` stops there. `readAll` collects what `next` gives.
-/
namespace DiceNotation

inductive LexError
  | unexpectedCharacter (position : Nat) (character : Char)
  | numberTooLarge (position : Nat) (digits : String)
  deriving DecidableEq, Repr

def LexError.position : LexError → Nat
  | unexpectedCharacter position _ => position
  | numberTooLarge position _ => position

structure Lexer where
  table : KeywordTable
  rest : List Char
  /-- How many characters are read. All that a lexer reads is ASCII, so they are as many bytes. -/
  offset : Nat
  finished : Bool
  deriving Repr

namespace Lexer

def start (table : KeywordTable) (line : String) : Lexer := ⟨table, line.toList, 0, false⟩

/-- Only these four separate tokens; any other space is an unexpected character. -/
def isBlank (character : Char) : Bool :=
  character = ' ' || character = '\t' || character = '\r' || character = '\n'

def advance (lexer : Lexer) (length : Nat) : Lexer :=
  { lexer with rest := lexer.rest.drop length, offset := lexer.offset + length }

def skipBlanks (lexer : Lexer) : Lexer :=
  lexer.advance (lexer.rest.takeWhile isBlank).length

/-- What stands at the start of a lexer's rest, which is not blank. -/
def readToken (lexer : Lexer) : Except LexError Token × Lexer :=
  match lexer.rest with
  | [] => (.ok ⟨.endOfInput, lexer.offset⟩, lexer)
  | first :: _ =>
    match Lexeme.read? lexer.table lexer.rest with
    | none => (.error (.unexpectedCharacter lexer.offset first), lexer)
    | some (.number value, length) =>
      if value < UInt64.size then
        (.ok ⟨.number value, lexer.offset⟩, lexer.advance length)
      else
        (.error (.numberTooLarge lexer.offset (String.ofList (lexer.rest.take length))),
          lexer.advance length)
    | some (lexeme, length) => (.ok ⟨lexeme, lexer.offset⟩, lexer.advance length)

def nextToken (lexer : Lexer) : Except LexError Token × Lexer := lexer.skipBlanks.readToken

def next (lexer : Lexer) : Option (Except LexError Token) × Lexer :=
  if lexer.finished then
    (none, lexer)
  else
    match lexer.nextToken with
    | (.ok token, after) =>
      (some (.ok token), { after with finished := token.lexeme = .endOfInput })
    | (.error error, after) => (some (.error error), { after with finished := true })

theorem advance_rest_length (lexer : Lexer) (length : Nat) :
    (lexer.advance length).rest.length = lexer.rest.length - length := by
  simp [advance]

theorem skipBlanks_rest_length_le (lexer : Lexer) :
    lexer.skipBlanks.rest.length ≤ lexer.rest.length := by
  simp [skipBlanks, advance_rest_length]

theorem readToken_rest_length_lt {lexer after : Lexer} {token : Token}
    (h : lexer.readToken = (.ok token, after)) (more : token.lexeme ≠ .endOfInput) :
    after.rest.length < lexer.rest.length := by
  unfold readToken at h
  split at h
  · simp only [Prod.mk.injEq, Except.ok.injEq] at h
    simp [← h.1] at more
  · rename_i first rest text
    split at h
    · simp at h
    · rename_i value length found
      split at h
      · simp only [Prod.mk.injEq] at h
        have := Lexeme.read?_pos found
        rw [← h.2, advance_rest_length, text, List.length_cons]
        omega
      · simp at h
    · rename_i lexeme length _ found
      simp only [Prod.mk.injEq] at h
      have := Lexeme.read?_pos found
      rw [← h.2, advance_rest_length, text, List.length_cons]
      omega

/-- A token that is not the end of input takes something off the rest. -/
theorem nextToken_rest_length_lt {lexer after : Lexer} {token : Token}
    (h : lexer.nextToken = (.ok token, after)) (more : token.lexeme ≠ .endOfInput) :
    after.rest.length < lexer.rest.length :=
  Nat.lt_of_lt_of_le (readToken_rest_length_lt h more) lexer.skipBlanks_rest_length_le

/-- The tokens up to the end of input or the first error, and that error. -/
def readAll (lexer : Lexer) : List Token × Option LexError :=
  match _h : lexer.nextToken with
  | (.error error, _) => ([], some error)
  | (.ok token, after) =>
    if _more : token.lexeme = .endOfInput then
      ([token], none)
    else
      let (tokens, error?) := after.readAll
      (token :: tokens, error?)
termination_by lexer.rest.length
decreasing_by exact nextToken_rest_length_lt _h _more

end Lexer

/-- The tokens of a line, the last of which is the end of input. -/
def tokenize (table : KeywordTable) (line : String) : Except LexError (List Token) :=
  match (Lexer.start table line).readAll with
  | (tokens, none) => .ok tokens
  | (_, some error) => .error error

end DiceNotation
