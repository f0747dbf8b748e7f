import Mathlib
import DiceNotation.Proofs.Slices
import DiceNotation.Proofs.Tiling

/-!
# Letter case

A lexer and a parser do with a line in lower case what they do with the line itself, but for the
texts of words. So they do the same with any two lines that differ in letter case alone.
-/
namespace DiceNotation

/-- Two texts that differ at most in the case of their ASCII letters. -/
def SameButCase (left right : String) : Prop :=
  KeywordTable.lowered left.toList = KeywordTable.lowered right.toList

namespace Lexeme

/-- The same lexemes, or two words that differ at most in letter case. -/
inductive SameButCase : Lexeme → Lexeme → Prop
  | same (lexeme : Lexeme) : SameButCase lexeme lexeme
  | word {left right : String} (texts : DiceNotation.SameButCase left right) :
      SameButCase (.word left) (.word right)

def lowered : Lexeme → Lexeme
  | word text => word (String.ofList (KeywordTable.lowered text.toList))
  | lexeme => lexeme

@[simp] theorem lowered_eq_endOfInput_iff {lexeme : Lexeme} :
    lexeme.lowered = .endOfInput ↔ lexeme = .endOfInput := by
  cases lexeme <;> simp [lowered]

theorem sameButCase_of_lowered {left right : Lexeme} (h : left.lowered = right.lowered) :
    left.SameButCase right := by
  cases left <;> cases right <;> simp only [lowered, reduceCtorEq] at h
  case word.word left right =>
    simp only [word.injEq] at h
    exact SameButCase.word (String.ofList_injective h)
  all_goals
    first
    | exact SameButCase.same _
    | rw [h]; exact SameButCase.same _

end Lexeme

namespace Token

structure SameButCase (left right : Token) : Prop where
  offset : left.offset = right.offset
  lexeme : left.lexeme.SameButCase right.lexeme

def lowered (token : Token) : Token := { token with lexeme := token.lexeme.lowered }

theorem sameButCase_of_lowered {left right : Token} (h : left.lowered = right.lowered) :
    left.SameButCase right := by
  rw [lowered, lowered, Token.mk.injEq] at h
  exact ⟨h.2, Lexeme.sameButCase_of_lowered h.1⟩

end Token

def ParseError.lowered (error : ParseError) : ParseError :=
  { error with found := error.found.lowered }

section Characters

variable {β : Type} {character sign : Char}

theorem toLower_of_not_isAlpha (h : character.isAlpha = false) : character.toLower = character := by
  apply Char.toLower_eq_of_not_isUpper
  simp_all [Char.isAlpha]

/-- What is the same for all letters does not see their case. -/
theorem apply_toLower {f : Char → β} {default : β}
    (h : ∀ letter, letter.isAlpha = true → f letter = default) (character : Char) :
    f character.toLower = f character := by
  cases hletter : character.isAlpha with
  | true => rw [h _ hletter, h _ (by simpa using hletter)]
  | false => rw [toLower_of_not_isAlpha hletter]

theorem toLower_eq_iff (h : sign.isAlpha = false) (character : Char) :
    character.toLower = sign ↔ character = sign := by
  have hletters : ∀ letter, letter.isAlpha = true → (letter = sign) = False := by
    intro letter hletter
    simp only [eq_iff_iff, iff_false]
    rintro rfl
    simp [h] at hletter
  exact iff_of_eq (apply_toLower hletters character)

theorem isDigit_toLower (character : Char) : character.toLower.isDigit = character.isDigit :=
  apply_toLower (fun _ => not_isDigit_of_isAlpha) character

theorem isBlank_toLower (character : Char) :
    Lexer.isBlank character.toLower = Lexer.isBlank character := by
  simp [Lexer.isBlank, toLower_eq_iff]

theorem ofChar?_toLower (character : Char) :
    Lexeme.ofChar? character.toLower = Lexeme.ofChar? character := by
  have hletters : ∀ letter, letter.isAlpha = true → Lexeme.ofChar? letter = none := by
    intro letter hletter
    unfold Lexeme.ofChar?
    split <;> first | rfl | cases hletter
  exact apply_toLower hletters character

theorem takeWhile_lowered {p : Char → Bool} (h : ∀ character, p character.toLower = p character)
    (text : List Char) :
    (KeywordTable.lowered text).takeWhile p = KeywordTable.lowered (text.takeWhile p) := by
  simp [KeywordTable.lowered, List.takeWhile_map, Function.comp_def, h]

theorem lowered_of_digits {digits : List Char}
    (h : ∀ character ∈ digits, character.isDigit = true) :
    KeywordTable.lowered digits = digits := by
  have hfixed : digits.map Char.toLower = digits.map id := by
    apply List.map_congr_left
    intro character hcharacter
    have hdigit := h character hcharacter
    apply toLower_of_not_isAlpha
    cases hletter : character.isAlpha with
    | false => rfl
    | true => simp [not_isDigit_of_isAlpha hletter] at hdigit
  rw [KeywordTable.lowered, hfixed, List.map_id]

end Characters

namespace KeywordTable

theorem keyword?_lowered (table : KeywordTable) (word : List Char) :
    table.keyword? (lowered word) = table.keyword? word := by
  simp [keyword?, lowered, Function.comp_def]

theorem prefixUpTo?_lowered (table : KeywordTable) (word : List Char) (n : Nat) :
    table.prefixUpTo? (lowered word) n = table.prefixUpTo? word n := by
  induction n with
  | zero => rfl
  | succ n ih =>
    have hstart : (lowered word).take (n + 1) = lowered (word.take (n + 1)) := List.map_take.symm
    rw [prefixUpTo?, prefixUpTo?, hstart, keyword?_lowered, ih]

theorem longestPrefix?_lowered (table : KeywordTable) (word : List Char) :
    table.longestPrefix? (lowered word) = table.longestPrefix? word := by
  rw [longestPrefix?, longestPrefix?, lowered_length, prefixUpTo?_lowered]

end KeywordTable

namespace Lexeme

variable {table : KeywordTable} {text : List Char}

/-- The first two characters of a text tell which symbol it starts with. -/
theorem symbol?_cons (first : Char) (rest : List Char) :
    symbol? (first :: rest) =
      if first = '<' ∧ rest.head? = some '=' then some (comparison .atMost, 2)
      else if first = '>' ∧ rest.head? = some '=' then some (comparison .atLeast, 2)
      else if first = '<' ∧ rest.head? = some '>' then some (comparison .notEqual, 2)
      else (ofChar? first).map (·, 1) := by
  unfold symbol?
  split <;> grind [List.head?_eq_some_iff]

theorem symbol?_lowered (text : List Char) :
    symbol? (KeywordTable.lowered text) = symbol? text := by
  cases text with
  | nil => rfl
  | cons first rest =>
    simp [KeywordTable.lowered, symbol?_cons, ofChar?_toLower, toLower_eq_iff]

theorem lowered_of_symbol? {lexeme : Lexeme} {length : Nat}
    (h : symbol? text = some (lexeme, length)) : lexeme.lowered = lexeme := by
  obtain ⟨word, rest, -, -, hmem, -⟩ := symbol?_eq_some h
  have hsymbols : ∀ symbol ∈ symbols, symbol.2.lowered = symbol.2 := by simp [symbols, lowered]
  exact hsymbols _ hmem

theorem read?_of_isDigit {first : Char} (rest : List Char) (h : first.isDigit = true) :
    read? table (first :: rest) =
      let digits := (first :: rest).takeWhile Char.isDigit
      some (number (Nat.ofDigitChars 10 digits 0), digits.length) := by
  simp only [read?, h, if_true]

theorem read?_of_isAlpha {first : Char} (rest : List Char) (h : first.isAlpha = true) :
    read? table (first :: rest) =
      let letters := (first :: rest).takeWhile Char.isAlpha
      match table.longestPrefix? letters with
      | some (found, length) => some (keyword found, length)
      | none => some (word (String.ofList letters), letters.length) := by
  have hdigit := not_isDigit_of_isAlpha h
  cases hspelled : table.longestPrefix? ((first :: rest).takeWhile Char.isAlpha) <;>
    simp only [read?, hdigit, h, hspelled, Bool.false_eq_true, if_false, if_true]

/-- In lower case a text starts with the same lexeme, but for the text of a word. -/
theorem read?_lowered (table : KeywordTable) (text : List Char) :
    read? table (KeywordTable.lowered text) =
      (read? table text).map fun found => (found.1.lowered, found.2) := by
  cases text with
  | nil => rfl
  | cons first rest =>
    have hcons : KeywordTable.lowered (first :: rest) =
        first.toLower :: KeywordTable.lowered rest := rfl
    cases hdigit : first.isDigit with
    | true =>
      have hdigits : ∀ character ∈ (first :: rest).takeWhile Char.isDigit,
          character.isDigit = true := fun _ => List.mem_takeWhile_imp
      rw [hcons, read?_of_isDigit _ (by rw [isDigit_toLower, hdigit]), ← hcons,
        takeWhile_lowered isDigit_toLower, lowered_of_digits hdigits, read?_of_isDigit _ hdigit]
      rfl
    | false =>
      cases hletter : first.isAlpha with
      | true =>
        rw [hcons, read?_of_isAlpha _ (by simpa using hletter), ← hcons,
          takeWhile_lowered Char.isAlpha_toLower_eq_isAlpha, read?_of_isAlpha _ hletter]
        dsimp only
        rw [KeywordTable.longestPrefix?_lowered]
        cases table.longestPrefix? ((first :: rest).takeWhile Char.isAlpha) with
        | some found => rfl
        | none => simp [lowered, KeywordTable.lowered_length]
      | false =>
        rw [hcons, read?_symbol (by rw [isDigit_toLower, hdigit]) (by simpa using hletter), ← hcons,
          symbol?_lowered, read?_symbol hdigit hletter]
        cases hsymbol : symbol? (first :: rest) with
        | none => rfl
        | some found => simp [lowered_of_symbol? hsymbol]

theorem isDigit_of_read?_number {value length : Nat}
    (h : read? table text = some (.number value, length)) :
    ∀ character ∈ text.take length, character.isDigit = true := by
  unfold read? at h
  split at h
  · cases h
  · rename_i first rest
    dsimp only at h
    split at h
    · cases h
      intro character hcharacter
      rw [← List.prefix_iff_eq_take.mp (List.takeWhile_prefix _)] at hcharacter
      exact List.mem_takeWhile_imp hcharacter
    · split at h
      · split at h <;> cases h
      · obtain ⟨word, rest, -, -, hmem, -⟩ := symbol?_eq_some h
        simp [symbols] at hmem

theorem not_isAlpha_of_read?_none {first : Char} {rest : List Char}
    (h : read? table (first :: rest) = none) : first.isAlpha = false := by
  rw [← Bool.not_eq_true]
  intro hletter
  rw [read?_of_isAlpha _ hletter] at h
  dsimp only at h
  split at h <;> cases h

end Lexeme

namespace Lexer

def lowered (lexer : Lexer) : Lexer := { lexer with rest := KeywordTable.lowered lexer.rest }

theorem advance_lowered (lexer : Lexer) (length : Nat) :
    lexer.lowered.advance length = (lexer.advance length).lowered := by
  simp [lowered, advance, KeywordTable.lowered]

theorem skipBlanks_lowered (lexer : Lexer) :
    lexer.lowered.skipBlanks = lexer.skipBlanks.lowered := by
  have hblanks : (lexer.lowered.rest.takeWhile isBlank).length =
      (lexer.rest.takeWhile isBlank).length := by
    rw [lowered, takeWhile_lowered isBlank_toLower, KeywordTable.lowered_length]
  rw [skipBlanks, hblanks, advance_lowered, skipBlanks]

/-- What is unexpected is no letter, and what is too large is digits: errors have no letter case. -/
theorem readToken_lowered (lexer : Lexer) :
    lexer.lowered.readToken =
      (lexer.readToken.1.map Token.lowered, lexer.readToken.2.lowered) := by
  obtain ⟨table, rest, offset, finished⟩ := lexer
  cases rest with
  | nil => rfl
  | cons first rest =>
    have hread := Lexeme.read?_lowered table (first :: rest)
    have hadvance := advance_lowered ⟨table, first :: rest, offset, finished⟩
    simp only [lowered, KeywordTable.lowered, List.map_cons] at hread hadvance
    simp only [readToken, lowered, KeywordTable.lowered, List.map_cons]
    rw [hread]
    cases hfound : Lexeme.read? table (first :: rest) with
    | none =>
      have hfirst := toLower_of_not_isAlpha (Lexeme.not_isAlpha_of_read?_none hfound)
      simp [Except.map, hfirst]
    | some found =>
      obtain ⟨lexeme, length⟩ := found
      cases lexeme with
      | number value =>
        by_cases hfits : value < UInt64.size
        · simp [Lexeme.lowered, hfits, hadvance, Except.map, Token.lowered]
        · have hdigits := lowered_of_digits (Lexeme.isDigit_of_read?_number hfound)
          rw [KeywordTable.lowered, List.map_take, List.map_cons] at hdigits
          simp [Lexeme.lowered, hfits, hadvance, Except.map, hdigits]
      | _ => simp [Lexeme.lowered, hadvance, Except.map, Token.lowered]

theorem nextToken_lowered (lexer : Lexer) :
    lexer.lowered.nextToken =
      (lexer.nextToken.1.map Token.lowered, lexer.nextToken.2.lowered) := by
  rw [nextToken, skipBlanks_lowered, readToken_lowered, nextToken]

theorem readAll_lowered (lexer : Lexer) :
    lexer.lowered.readAll = (lexer.readAll.1.map Token.lowered, lexer.readAll.2) := by
  -- each token that is read leaves a shorter rest, of which this holds
  induction hsize : lexer.rest.length using Nat.strongRecOn generalizing lexer with
  | _ size ih =>
    rw [readAll_eq, readAll_eq lexer, nextToken_lowered]
    rcases hnext : lexer.nextToken with ⟨error | token, after⟩
    · rfl
    · by_cases hend : token.lexeme = .endOfInput
      · simp [Except.map, Token.lowered, Lexeme.lowered, hend]
      · have hshorter := nextToken_rest_length_lt hnext hend
        have hafter := ih _ (hsize ▸ hshorter) after rfl
        simp [Except.map, Token.lowered, hend, hafter]

end Lexer

theorem tokenize_lowered (table : KeywordTable) (line : String) :
    tokenize table (String.ofList (KeywordTable.lowered line.toList)) =
      (tokenize table line).map (List.map Token.lowered) := by
  have hstart : Lexer.start table (String.ofList (KeywordTable.lowered line.toList)) =
      (Lexer.start table line).lowered := by simp [Lexer.start, Lexer.lowered]
  rw [tokenize, hstart, Lexer.readAll_lowered, tokenize]
  rcases (Lexer.start table line).readAll with ⟨tokens, _ | error⟩ <;> rfl

namespace Parser

theorem ahead_lowered (rest : List Lexeme) : ahead (rest.map Lexeme.lowered) = ahead rest := by
  have hseen : Lexeme.seen ∘ Lexeme.lowered = Lexeme.seen := by
    funext lexeme
    cases lexeme <;> rfl
  have hend : (· != .endOfInput) ∘ Lexeme.lowered = (· != .endOfInput) := by
    funext lexeme
    cases lexeme <;> rfl
  rw [ahead, List.takeWhile_map, hend, ← List.map_take, List.map_map, hseen, ahead]

theorem map_lowered_of_known {taken : List Lexeme}
    (h : ∀ lexeme ∈ taken, lexeme.isKnown = true) : taken.map Lexeme.lowered = taken := by
  have hfixed : taken.map Lexeme.lowered = taken.map id := by
    apply List.map_congr_left
    intro lexeme hlexeme
    have hknown := h lexeme hlexeme
    cases lexeme with
    | word => cases hknown
    | _ => rfl
  rw [hfixed, List.map_id]

theorem positionAt_lowered (tokens : List Token) (index : Nat) :
    positionAt (tokens.map Token.lowered) index = positionAt tokens index := by
  have hoffset : Token.offset ∘ Token.lowered = Token.offset := rfl
  unfold positionAt
  rw [List.getElem?_map, List.getLast?_map, Option.map_map, hoffset]
  cases tokens[index]? <;> rfl

theorem lexemeAt_lowered (tokens : List Token) (index : Nat) :
    lexemeAt (tokens.map Token.lowered) index = (lexemeAt tokens index).lowered := by
  unfold lexemeAt
  rw [List.getElem?_map]
  cases tokens[index]? <;> rfl

end Parser

open DiceNotation.Parser in
theorem Expression.ofTokens_lowered (tokens : List Token) :
    Expression.ofTokens (tokens.map Token.lowered) =
      (Expression.ofTokens tokens).mapError ParseError.lowered := by
  obtain ⟨taken, rest, ending, htokens, hknown, hstops⟩ := exists_stopsAt tokens
  have hlowered : (tokens.map Token.lowered).map Token.lexeme =
      taken ++ rest.map Lexeme.lowered := by
    calc (tokens.map Token.lowered).map Token.lexeme
        = (tokens.map Token.lexeme).map Lexeme.lowered := by simp [Token.lowered]
      _ = taken ++ rest.map Lexeme.lowered := by
          rw [htokens, List.map_append, map_lowered_of_known hknown]
  rw [(hstops tokens rest htokens rfl).ofTokens,
    (hstops _ _ hlowered (ahead_lowered rest)).ofTokens]
  cases ending with
  | ok result => rfl
  | error expected =>
    rw [outcomeAt, outcomeAt, positionAt_lowered, lexemeAt_lowered]
    rfl

theorem sameButCase_of_map_lowered {tokens tokens' : List Token}
    (h : tokens.map Token.lowered = tokens'.map Token.lowered) :
    List.Forall₂ Token.SameButCase tokens tokens' := by
  have hlowered : List.Forall₂ (· = ·) (tokens.map Token.lowered)
      (tokens'.map Token.lowered) := by rw [List.forall₂_eq_eq_eq, h]
  rw [List.forall₂_map_left_iff, List.forall₂_map_right_iff] at hlowered
  exact hlowered.imp fun _ _ => Token.sameButCase_of_lowered

/-- Outcomes that are the same in lower case are the same tree, or errors at the same place. -/
theorem ParseError.alike_of_lowered {outcome outcome' : Except ParseError Expression}
    (h : outcome.mapError ParseError.lowered = outcome'.mapError ParseError.lowered) :
    (∃ expression, outcome = .ok expression ∧ outcome' = .ok expression) ∨
      ∃ position expected found found',
        outcome = .error ⟨position, expected, found⟩ ∧
        outcome' = .error ⟨position, expected, found'⟩ ∧ found.SameButCase found' := by
  cases outcome with
  | ok expression =>
    cases outcome' with
    | ok expression' => left; simpa [Except.mapError, eq_comm] using h
    | error error' => cases h
  | error error =>
    cases outcome' with
    | ok expression' => cases h
    | error error' =>
      right
      obtain ⟨position, expected, found⟩ := error
      obtain ⟨position', expected', found'⟩ := error'
      simp only [Except.mapError, ParseError.lowered, Except.error.injEq, ParseError.mk.injEq] at h
      obtain ⟨rfl, rfl, hfound⟩ := h
      exact ⟨position, expected, found, found', rfl, rfl, Lexeme.sameButCase_of_lowered hfound⟩

/-- Letter case makes no difference: two lines that differ in nothing else fail with the same error,
or have the same tokens at the same places, up to the case of unknown words. From these comes the
same tree, or the same is expected at the same place. -/
theorem tokenize_of_sameButCase (table : KeywordTable) {left right : String}
    (h : SameButCase left right) :
    (∃ error, tokenize table left = .error error ∧ tokenize table right = .error error) ∨
      ∃ tokens tokens', tokenize table left = .ok tokens ∧ tokenize table right = .ok tokens' ∧
        List.Forall₂ Token.SameButCase tokens tokens' ∧
        ((∃ expression, Expression.ofTokens tokens = .ok expression ∧
            Expression.ofTokens tokens' = .ok expression) ∨
          ∃ position expected found found',
            Expression.ofTokens tokens = .error ⟨position, expected, found⟩ ∧
            Expression.ofTokens tokens' = .error ⟨position, expected, found'⟩ ∧
            found.SameButCase found') := by
  have hread : (tokenize table left).map (List.map Token.lowered) =
      (tokenize table right).map (List.map Token.lowered) := by
    rw [← tokenize_lowered, ← tokenize_lowered, h]
  cases hleft : tokenize table left with
  | error error =>
    left
    cases hright : tokenize table right with
    | error error' => simpa [hleft, hright, Except.map, eq_comm] using hread
    | ok tokens' => simp [hleft, hright, Except.map] at hread
  | ok tokens =>
    right
    cases hright : tokenize table right with
    | error error' => simp [hleft, hright, Except.map] at hread
    | ok tokens' =>
      simp only [hleft, hright, Except.map, Except.ok.injEq] at hread
      have hparsed : (Expression.ofTokens tokens).mapError ParseError.lowered =
          (Expression.ofTokens tokens').mapError ParseError.lowered := by
        rw [← Expression.ofTokens_lowered, ← Expression.ofTokens_lowered, hread]
      exact ⟨tokens, tokens', rfl, rfl, sameButCase_of_map_lowered hread,
        ParseError.alike_of_lowered hparsed⟩

/-- A spelling that was added counts in any case, and an unknown word is rejected in any. -/
theorem tokenize_of_sameButCase_of_new_spelling :
    let table := KeywordTable.standard.insert ['B', 'o', 'o', 'm'] .explode
    let tokens := [⟨.number 2, 0⟩, ⟨.keyword .die, 1⟩, ⟨.number 6, 2⟩, ⟨.keyword .explode, 4⟩,
      ⟨.comparison .greater, 8⟩, ⟨.number 3, 9⟩, ⟨.word "fIsh", 11⟩, ⟨.endOfInput, 15⟩]
    SameButCase "2D6 bOOm>3 fIsh" "2d6 BOOM>3 Fish" ∧
      tokenize table "2D6 bOOm>3 fIsh" = .ok tokens ∧
      ∃ tokens', tokenize table "2d6 BOOM>3 Fish" = .ok tokens' ∧
        List.Forall₂ Token.SameButCase tokens tokens' ∧
        ∃ found, Expression.ofTokens tokens' = .error ⟨11, .operatorOrEnd, found⟩ := by
  intro table tokens
  have hsame : SameButCase "2D6 bOOm>3 fIsh" "2d6 BOOM>3 Fish" := by
    rw [SameButCase]
    decide +kernel
  have hleft : tokenize table "2D6 bOOm>3 fIsh" = .ok tokens := by decide +kernel
  have hparsed : Expression.ofTokens tokens = .error ⟨11, .operatorOrEnd, .word "fIsh"⟩ := by
    decide +kernel
  obtain ⟨error, herror, -⟩ | ⟨tokens₁, tokens', htokens, hright, halike, houtcome⟩ :=
    tokenize_of_sameButCase table hsame
  · rw [hleft] at herror
    cases herror
  · rw [hleft] at htokens
    cases htokens
    obtain ⟨expression, hexpression, -⟩ | ⟨position, expected, found, found', herror, herror', -⟩ :=
      houtcome
    · rw [hparsed] at hexpression
      cases hexpression
    · rw [hparsed] at herror
      cases herror
      exact ⟨hsame, hleft, tokens', hright, halike, found', herror'⟩

end DiceNotation
