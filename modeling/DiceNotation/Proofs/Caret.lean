import DiceNotation.Faces.Script
import DiceNotation.Line
import DiceNotation.Proofs.Offences
import DiceNotation.Proofs.Slices
import DiceNotation.Proofs.Spacing

/-!
# What the caret points at

A line that cannot be read or parsed is shown with a caret under one of its characters, or behind
the last of them. What stands there is what the failure is about.
-/
namespace DiceNotation

/-- The parser rejects a line with this error, and the error tells the token that it stops at. -/
def Rejects (line : String) (error : ParseError) : Prop :=
  ∃ tokens, tokenize .standard line = .ok tokens ∧ Expression.ofTokens tokens = .error error ∧
    tokens[Parser.cursor (tokens.map Token.lexeme)]? = some ⟨error.found, error.position⟩

/-- What a failure to read or to parse a line is about, with all that comes behind it. -/
inductive PointsAt (line : String) : Failure → List Char → Prop
  | character {position : Nat} {character : Char} (rest : List Char)
      (strange : ¬IsNotation character) :
      PointsAt line (.lexing (.unexpectedCharacter position character)) (character :: rest)
  | number {position : Nat} {run : List Char} (rest : List Char) (nonempty : run ≠ [])
      (digits : ∀ character ∈ run, character.isDigit = true)
      (ends : ∀ next ∈ rest.head?, next.isDigit = false)
      (large : UInt64.size ≤ Nat.ofDigitChars 10 run 0) :
      PointsAt line (.lexing (.numberTooLarge position (String.ofList run))) (run ++ rest)
  | token {error : ParseError} {front back : List Tile} {text : List Char}
      (rejects : Rejects line error)
      (munched : Munched .standard (front ++ .span text error.found :: back))
      (texts : Tile.texts (front ++ .span text error.found :: back) = line.toList)
      (nonempty : text ≠ []) :
      PointsAt line (.parsing error) (text ++ Tile.texts back)
  | endOfInput {error : ParseError} (rejects : Rejects line error)
      (found : error.found = .endOfInput) : PointsAt line (.parsing error) []

theorem offence_of_tokenize {table : KeywordTable} {line : String} {error : LexError}
    (h : tokenize table line = .error error) : Offence line.toList error := by
  obtain ⟨verdict, hjudged, hread⟩ := readAsJudged line.toList
  rw [tokenize_eq_error_iff_readAll, hread] at h
  cases verdict with
  | none => cases h
  | some first =>
    simp only [Option.map_some, LexError.behind_zero, Option.some.injEq] at h
    exact h ▸ hjudged.1

theorem exists_pointsAt_of_lexing {line : String} {error : LexError}
    (h : tokenize .standard line = .error error) :
    ∃ before after, line.toList = before ++ after ∧ error.position = Text.byteLength before ∧
      PointsAt line (.lexing error) after := by
  have hoffence := offence_of_tokenize h
  generalize line.toList = text at hoffence ⊢
  cases hoffence with
  | character before after strange =>
    exact ⟨before, _, rfl, rfl, .character after strange⟩
  | number before after nonempty digits _ ends large =>
    exact ⟨before, _, rfl, rfl, .number after nonempty digits ends large⟩

theorem exists_pointsAt_of_parsing {line : String} {tokens : List Token} {error : ParseError}
    (hread : tokenize .standard line = .ok tokens) (h : Expression.ofTokens tokens = .error error) :
    ∃ before after, line.toList = before ++ after ∧ error.position = Text.byteLength before ∧
      PointsAt line (.parsing error) after := by
  obtain ⟨tiles, hmunched, htexts, htokens⟩ := exists_munched_of_tokenize hread
  have hindex := Parser.getElem?_cursor h (by simp [htokens])
  have hrejects : Rejects line error := ⟨tokens, hread, h, hindex⟩
  have hmem := List.mem_of_getElem? hindex
  rw [htokens, List.mem_append, List.mem_singleton] at hmem
  -- the token that is rejected is that of a span, or the end of input behind all spans
  rcases hmem with hmem | hmem
  · obtain ⟨front, text, back, rfl, hposition⟩ := Tile.exists_span_of_mem_tokens hmem
    have hline : line.toList = Tile.texts front ++ (text ++ Tile.texts back) := by
      rw [← htexts]
      simp
    have hnonempty : text ≠ [] := hmunched.text_ne_nil (.span text error.found) (by simp)
    refine ⟨Tile.texts front, _, hline, by simpa using hposition, ?_⟩
    exact .token hrejects hmunched htexts hnonempty
  · rw [Token.mk.injEq] at hmem
    refine ⟨line.toList, [], by simp, ?_, .endOfInput hrejects hmem.1⟩
    rw [Text.byteLength_toList, hmem.2]

/-- What a message says that it found is the token that is rejected. Past the last token, that is
the end of input. -/
theorem message_of_rejected {tokens : List Token} {error : ParseError}
    (h : Expression.ofTokens tokens = .error error) :
    (Failure.parsing error).message =
      "parse error - expected " ++ error.expected.text ++ " at position " ++
        toString error.position ++ ", found " ++
          ((tokens[Parser.cursor (tokens.map Token.lexeme)]?.map fun token =>
            token.lexeme.text).getD "end of input") := by
  have hfound : error.found.text =
      (tokens[Parser.cursor (tokens.map Token.lexeme)]?.map fun token =>
        token.lexeme.text).getD "end of input" := by
    rw [Parser.found_eq_lexemeAt h, Parser.lexemeAt]
    cases tokens[Parser.cursor (tokens.map Token.lexeme)]? <;> rfl
  rw [← hfound]
  simp only [Failure.message, Failure.report, Report.ofParsing, Report.message, Stage.text,
    String.append_assoc]
  rfl

example : Expression.ofTokens [⟨.number 2, 0⟩, ⟨.keyword .die, 1⟩] =
      .error ⟨1, .sides, .endOfInput⟩ ∧
    (Failure.parsing ⟨1, .sides, .endOfInput⟩).message =
      "parse error - expected a number of sides or '%' at position 1, found end of input" :=
  ⟨rfl, rfl⟩

theorem Report.describe_eq {report : Report} {line : String} {before after : List Char}
    (hline : line.toList = before ++ after)
    (hposition : report.position = some (Text.byteLength before)) :
    report.describe line =
      line ++ "\n" ++ String.ofList (List.replicate before.length ' ') ++ "^\n" ++
        report.message := by
  rw [describe, hposition]
  dsimp only
  rw [hline, Text.column?_byteLength]
  rfl

theorem exists_pointsAt {line : String} {failure : Failure}
    (h : Expression.parse line = .error failure) :
    ∃ before after, line.toList = before ++ after ∧
      failure.report.position = some (Text.byteLength before) ∧ PointsAt line failure after := by
  unfold Expression.parse at h
  cases hread : tokenize .standard line with
  | error error =>
    rw [hread] at h
    cases h
    obtain ⟨before, after, hline, hposition, hpoints⟩ := exists_pointsAt_of_lexing hread
    exact ⟨before, after, hline, congrArg some hposition, hpoints⟩
  | ok tokens =>
    rw [hread] at h
    dsimp only at h
    cases hparse : Expression.ofTokens tokens with
    | ok expression => simp [hparse] at h
    | error error =>
      rw [hparse] at h
      cases h
      obtain ⟨before, after, hline, hposition, hpoints⟩ := exists_pointsAt_of_parsing hread hparse
      exact ⟨before, after, hline, congrArg some hposition, hpoints⟩

theorem parse_of_rollLine {σ : Type} [FaceSource σ] {line : String} {source : σ} {failure : Failure}
    (h : (rollLine line source).1 = .error failure)
    (hrolled : ∀ error, failure ≠ .rolling error) : Expression.parse line = .error failure := by
  unfold rollLine at h
  cases hparse : Expression.parse line with
  | error other =>
    rw [hparse] at h
    exact congrArg Except.error (Except.error.inj h)
  | ok expression =>
    rw [hparse] at h
    dsimp only at h
    rcases hroll : expression.roll {} source with ⟨error | evaluation, after⟩
    · rw [hroll] at h
      exact absurd (Except.error.inj h).symm (hrolled error)
    · rw [hroll] at h
      cases h

/-- The caret stands under what a failure to read or to parse a line is about, or behind the line
when the line ends too early. -/
theorem describe_of_rollLine {σ : Type} [FaceSource σ] {line : String} {source : σ}
    {failure : Failure} (h : (rollLine line source).1 = .error failure)
    (hrolled : ∀ error, failure ≠ .rolling error) :
    ∃ before after position, line.toList = before ++ after ∧
      failure.report.position = some position ∧ position = Text.byteLength before ∧
      position ≤ line.utf8ByteSize ∧ Text.column? position line.toList = some before.length ∧
      failure.report.describe line =
        line ++ "\n" ++ String.ofList (List.replicate before.length ' ') ++ "^\n" ++
          failure.message ∧
      PointsAt line failure after := by
  obtain ⟨before, after, hline, hposition, hpoints⟩ := exists_pointsAt (parse_of_rollLine h hrolled)
  refine ⟨before, after, Text.byteLength before, hline, hposition, rfl, ?_, ?_,
    Report.describe_eq hline hposition, hpoints⟩
  · rw [← Text.byteLength_toList, hline, Text.byteLength_append]
    exact Nat.le_add_right _ _
  · rw [hline, Text.column?_byteLength]

/-- A character of two bytes is unexpected behind six others. -/
theorem describe_of_rollLine_of_accent :
    (rollLine "2d6 + é4" (Script.ofList [3])).1 =
        .error (.lexing (.unexpectedCharacter 6 'é')) ∧
      (Failure.lexing (.unexpectedCharacter 6 'é')).report.describe "2d6 + é4" =
        "2d6 + é4\n      ^\nlex error - unexpected character 'é' at position 6" ∧
      ∃ after, PointsAt "2d6 + é4" (.lexing (.unexpectedCharacter 6 'é')) ('é' :: after) := by
  have hparse : Expression.parse "2d6 + é4" = .error (.lexing (.unexpectedCharacter 6 'é')) := by
    decide +kernel
  have hroll : (rollLine "2d6 + é4" (Script.ofList [3])).1 =
      .error (.lexing (.unexpectedCharacter 6 'é')) := by
    rw [rollLine, hparse]
  obtain ⟨before, after, position, -, hposition, -, -, hcolumn, hdescribe, hpoints⟩ :=
    describe_of_rollLine hroll nofun
  have hlength : before.length = 6 := by
    cases hposition
    have hsix : Text.column? 6 "2d6 + é4".toList = some 6 := by decide +kernel
    exact Option.some.inj (hcolumn.symm.trans hsix)
  rw [hlength] at hdescribe
  refine ⟨hroll, hdescribe.trans (by decide +kernel), ?_⟩
  cases hpoints with
  | character rest strange => exact ⟨rest, .character rest strange⟩

end DiceNotation
