import Mathlib.Data.List.TakeWhile
import DiceNotation.Proofs.Foresight

/-!
# Tokens as they stand

The tokens of a line end with an end of input, but any tokens can be parsed: some may follow the
end of input, or there may be none. Whether and where a parser rejects them is settled by the tokens
up to the one behind the token that it rejects.
-/
namespace DiceNotation

namespace Parser

variable {α : Type}

/-- A whole line from lexemes that may go on behind its end of input, or stop without one. -/
def uncutLine : Parser Expression := do
  let expression ← sum (factor maxNesting)
  match ← peek with
  | none | some .endOfInput => return expression
  | some (.keyword .die) => reject .operatorOrEnd
  | some (.keyword _) => reject .diceBeforeModifier
  | some _ => reject .operatorOrEnd

def leftover : Except Rejection (α × Pending) → List Lexeme
  | .error rejection => rejection.rest
  | .ok (_, pending) => pending.rest

/-- How many of the lexemes are taken until the line ends or is rejected. As none is given back, a
parser is at no time further on. -/
def cursor (lexemes : List Lexeme) : Nat :=
  lexemes.length - (leftover (uncutLine ⟨lexemes, maxNodes⟩)).length

/-- The lexeme of a token; past the last token, the end of input. -/
def lexemeAt (tokens : List Token) (index : Nat) : Lexeme :=
  (tokens[index]?.map Token.lexeme).getD .endOfInput

end Parser

/-- The expression of tokens that are read one after the other as they stand: an end of input is
a token like the others, and nothing is cut off behind it. -/
def Expression.ofSlice (tokens : List Token) : Except ParseError Expression :=
  match Parser.uncutLine ⟨tokens.map Token.lexeme, Parser.maxNodes⟩ with
  | .ok (expression, _) => .ok expression
  | .error rejection =>
    let index := Parser.cursor (tokens.map Token.lexeme)
    .error ⟨Parser.positionAt tokens index, rejection.expected, Parser.lexemeAt tokens index⟩

/-- Where tokens end: where their first end of input stands, or else where the last of them does. -/
def endOffset (tokens : List Token) : Nat :=
  match tokens.find? (·.lexeme == .endOfInput) with
  | some token => token.offset
  | none => (tokens.getLast?.map Token.offset).getD 0

def ended (tokens : List Token) : List Token :=
  tokens.takeWhile (·.lexeme != .endOfInput) ++ [⟨.endOfInput, endOffset tokens⟩]

namespace Parser

variable {α : Type} {text rest taken : List Lexeme} {tokens : List Token}

@[simp] theorem leftover_leaving (rest : List Lexeme) (ending : Except Expected (α × Nat)) :
    leftover (leaving rest ending) = rest := by
  cases ending <;> rfl

theorem settled_uncutLine : Settled uncutLine := by
  intro text room
  refine (settled_sum (settled_factor maxNesting) text room).bind fun expression rest room' _ => ?_
  refine SettledOn.peek_bind ?_ ?_
  · cases rest with
    | nil => exact settledOn_pure expression
    | cons first rest =>
      cases first with
      | keyword keyword =>
        cases keyword with
        | die => exact settledOn_reject .operatorOrEnd
        | _ => exact settledOn_reject .diceBeforeModifier
      | endOfInput => exact settledOn_pure expression
      | _ => exact settledOn_reject .operatorOrEnd
  · rintro (_ | lexeme)
    · rfl
    · cases lexeme <;> rfl

theorem line_eq_uncutLine {room : Nat} (h : ∀ lexeme ∈ text, lexeme ≠ .endOfInput) :
    line ⟨text, room⟩ = uncutLine ⟨text, room⟩ := by
  obtain ⟨taken, rest, ending, rfl, -, hsettled⟩ :=
    settled_sum (settled_factor maxNesting) text room
  have hsum := hsettled rest rfl
  cases ending with
  | error expected =>
    change (sum (factor maxNesting) ⟨taken ++ rest, room⟩ >>= fun result => _) =
      (sum (factor maxNesting) ⟨taken ++ rest, room⟩ >>= fun result => _)
    rw [hsum]
    rfl
  | ok result =>
    obtain ⟨expression, room'⟩ := result
    rw [line, uncutLine, bind_of_eq_ok hsum, bind_of_eq_ok hsum]
    cases rest with
    | nil => rfl
    | cons first rest =>
      cases first with
      | endOfInput => exact absurd rfl (h .endOfInput (by simp))
      | keyword keyword => cases keyword <;> rfl
      | _ => rfl

theorem takeWhile_of_known (h : ∀ lexeme ∈ taken, lexeme.isKnown = true) (rest : List Lexeme) :
    (taken ++ rest).takeWhile (· != .endOfInput) = taken ++ rest.takeWhile (· != .endOfInput) := by
  apply List.takeWhile_append_of_pos
  intro lexeme hlexeme
  simpa using Lexeme.ne_endOfInput_of_isKnown (h lexeme hlexeme)

theorem ahead_takeWhile (rest : List Lexeme) :
    ahead (rest.takeWhile (· != .endOfInput)) = ahead rest := by
  rw [ahead, ahead, List.takeWhile_idem]

theorem ahead_take (rest : List Lexeme) : ahead (rest.take 2) = ahead rest := by
  rcases rest with _ | ⟨first, _ | ⟨second, rest⟩⟩
  · rfl
  · rfl
  · by_cases hfirst : first = .endOfInput
    · simp [hfirst]
    · by_cases hsecond : second = .endOfInput
      · simp [ahead_cons _ hfirst, hsecond]
      · simp [ahead_cons _ hfirst, ahead_cons _ hsecond]

theorem lexemeAt_length (h : tokens.map Token.lexeme = taken ++ rest) :
    lexemeAt tokens taken.length = rest.head?.getD .endOfInput := by
  rw [lexemeAt, ← List.getElem?_map, h, List.getElem?_append_right (Nat.le_refl _)]
  simp [List.head?_eq_getElem?]

theorem getD_head?_takeWhile (rest : List Lexeme) :
    (rest.takeWhile (· != .endOfInput)).head?.getD .endOfInput = rest.head?.getD .endOfInput := by
  cases rest with
  | nil => rfl
  | cons first rest => by_cases hfirst : first = .endOfInput <;> simp [hfirst]

/-- What a parser gives that stops in front of the token of an index. -/
def outcomeAt (tokens : List Token) (index : Nat) :
    Except Expected (Expression × Nat) → Except ParseError Expression
  | .ok (expression, _) => .ok expression
  | .error expected => .error ⟨positionAt tokens index, expected, lexemeAt tokens index⟩

/-- A parser stops in front of the same token whether tokens are cut off at their end or not. -/
structure StopsAt (tokens : List Token) (index : Nat)
    (ending : Except Expected (Expression × Nat)) : Prop where
  ofTokens : Expression.ofTokens tokens = outcomeAt tokens index ending
  ofSlice : Expression.ofSlice tokens = outcomeAt tokens index ending
  cursor : cursor (tokens.map Token.lexeme) = index

theorem stopsAt_of_settled {ending : Except Expected (Expression × Nat)}
    (htokens : tokens.map Token.lexeme = taken ++ rest)
    (hknown : ∀ lexeme ∈ taken, lexeme.isKnown = true)
    (hsettled : ∀ other, ahead other = ahead rest →
      uncutLine ⟨taken ++ other, maxNodes⟩ = leaving other ending) :
    StopsAt tokens taken.length ending := by
  have hcursor : cursor (tokens.map Token.lexeme) = taken.length := by
    simp [cursor, htokens, hsettled rest rfl]
  have hbody : body tokens = taken ++ rest.takeWhile (· != .endOfInput) := by
    rw [body, htokens, takeWhile_of_known hknown]
  have hline : line ⟨body tokens, maxNodes⟩ =
      leaving (rest.takeWhile (· != .endOfInput)) ending := by
    rw [line_eq_uncutLine, hbody, hsettled _ (ahead_takeWhile rest)]
    intro lexeme hlexeme
    simpa using List.mem_takeWhile_imp hlexeme
  -- a parser that takes no end of input does not see what is cut off behind the first one
  refine ⟨?_, ?_, hcursor⟩
  · unfold Expression.ofTokens
    rw [hline]
    cases ending with
    | ok result => rfl
    | error expected =>
      simp [leaving, outcomeAt, Rejection.toError, hbody, lexemeAt_length htokens,
        getD_head?_takeWhile]
  · unfold Expression.ofSlice
    rw [htokens, hsettled rest rfl, ← htokens]
    cases ending with
    | ok result => rfl
    | error expected => simp [leaving, outcomeAt, hcursor]

theorem exists_stopsAt (tokens : List Token) :
    ∃ taken rest ending, tokens.map Token.lexeme = taken ++ rest ∧
      (∀ lexeme ∈ taken, lexeme.isKnown = true) ∧
      ∀ (others : List Token) (rest' : List Lexeme), others.map Token.lexeme = taken ++ rest' →
        ahead rest' = ahead rest → StopsAt others taken.length ending := by
  obtain ⟨taken, rest, ending, htokens, hknown, hsettled⟩ :=
    settled_uncutLine (tokens.map Token.lexeme) maxNodes
  refine ⟨taken, rest, ending, htokens, hknown, fun others rest' hothers hahead => ?_⟩
  apply stopsAt_of_settled hothers hknown
  intro other hother
  exact hsettled other (hother.trans hahead)

theorem getElem?_length_body (tokens : List Token) :
    tokens[(body tokens).length]? = tokens.find? (·.lexeme == .endOfInput) := by
  induction tokens with
  | nil => rfl
  | cons token tokens ih =>
    by_cases hend : token.lexeme = .endOfInput
    · simp [body, hend]
    · simpa [body, hend, List.takeWhile_map] using ih

theorem positionAt_length_body (tokens : List Token) :
    positionAt tokens (body tokens).length = endOffset tokens := by
  have hindex := getElem?_length_body tokens
  cases hend : tokens.find? (·.lexeme == .endOfInput) with
  | none => simp [positionAt, endOffset, hindex, hend]
  | some token => simp [positionAt, endOffset, hindex, hend]

theorem lexemeAt_length_body (tokens : List Token) :
    lexemeAt tokens (body tokens).length = .endOfInput := by
  rw [lexemeAt, getElem?_length_body]
  cases hfind : tokens.find? (·.lexeme == .endOfInput) with
  | none => rfl
  | some token => simpa using List.find?_some hfind

theorem map_lexeme_takeWhile (tokens : List Token) :
    (tokens.takeWhile (·.lexeme != .endOfInput)).map Token.lexeme = body tokens := by
  simp [body, List.takeWhile_map, Function.comp_def]

theorem map_lexeme_ended (tokens : List Token) :
    (ended tokens).map Token.lexeme = body tokens ++ [.endOfInput] := by
  simp [ended, map_lexeme_takeWhile]

theorem length_body_le (tokens : List Token) : (body tokens).length ≤ tokens.length := by
  have hprefix := List.takeWhile_prefix (l := tokens.map Token.lexeme) (· != .endOfInput)
  simpa [body] using hprefix.length_le

theorem body_ended (tokens : List Token) : body (ended tokens) = body tokens := by
  rw [body, map_lexeme_ended, List.takeWhile_append_of_pos]
  · simp
  · exact fun _ => List.mem_takeWhile_imp

theorem getElem?_ended {index : Nat} (h : index < (body tokens).length) :
    (ended tokens)[index]? = tokens[index]? := by
  have hindex : index < (tokens.takeWhile (·.lexeme != .endOfInput)).length := by
    rwa [← map_lexeme_takeWhile, List.length_map] at h
  obtain ⟨more, hmore⟩ := List.takeWhile_prefix (l := tokens) (·.lexeme != .endOfInput)
  calc (ended tokens)[index]?
      = (tokens.takeWhile (·.lexeme != .endOfInput))[index]? := List.getElem?_append_left hindex
    _ = (tokens.takeWhile (·.lexeme != .endOfInput) ++ more)[index]? :=
        (List.getElem?_append_left hindex).symm
    _ = tokens[index]? := by rw [hmore]

theorem endOffset_ended (tokens : List Token) : endOffset (ended tokens) = endOffset tokens := by
  have hfind : (ended tokens).find? (·.lexeme == .endOfInput) =
      some ⟨.endOfInput, endOffset tokens⟩ := by
    rw [ended, List.find?_append, List.find?_eq_none.mpr]
    · rfl
    · intro token htoken
      simpa using List.mem_takeWhile_imp htoken
  rw [endOffset, hfind]

theorem outcomeAt_ended {index : Nat} {ending : Except Expected (Expression × Nat)}
    (h : index ≤ (body tokens).length) :
    outcomeAt (ended tokens) index ending = outcomeAt tokens index ending := by
  have hplace : positionAt (ended tokens) index = positionAt tokens index ∧
      lexemeAt (ended tokens) index = lexemeAt tokens index := by
    rcases Nat.lt_or_eq_of_le h with hlt | rfl
    · have hindex : index < tokens.length := Nat.lt_of_lt_of_le hlt (length_body_le tokens)
      have htoken : tokens[index]? = some tokens[index] := List.getElem?_eq_getElem hindex
      simp [positionAt, lexemeAt, getElem?_ended hlt, htoken]
    · rw [← body_ended, positionAt_length_body, lexemeAt_length_body, endOffset_ended,
        body_ended, positionAt_length_body, lexemeAt_length_body]
      simp
  cases ending with
  | ok result => rfl
  | error expected => rw [outcomeAt, outcomeAt, hplace.1, hplace.2]

theorem exists_stopsAt_of_body (tokens : List Token) :
    ∃ index ending, index ≤ (body tokens).length ∧
      ∀ others, body others = body tokens → StopsAt others index ending := by
  obtain ⟨taken, rest, ending, htokens, hknown, hstops⟩ := exists_stopsAt tokens
  have hbody : body tokens = taken ++ rest.takeWhile (· != .endOfInput) := by
    rw [body, htokens, takeWhile_of_known hknown]
  refine ⟨taken.length, ending, by simp [hbody], fun others hothers => ?_⟩
  have hprefix : taken <+: others.map Token.lexeme :=
    (hothers.trans hbody ▸ List.prefix_append _ _ : taken <+: body others).trans
      (List.takeWhile_prefix _)
  obtain ⟨rest', hrest'⟩ := hprefix
  have hsame : rest'.takeWhile (· != .endOfInput) = rest.takeWhile (· != .endOfInput) := by
    rw [body, ← hrest', takeWhile_of_known hknown, hbody] at hothers
    exact List.append_cancel_left hothers
  apply hstops others rest' hrest'.symm
  rw [← ahead_takeWhile, hsame, ahead_takeWhile]

/-- An error is about the first token that is not taken, and it is the same for all tokens that
start alike and look alike from there on. -/
theorem exists_stopsAt_of_error {error : ParseError}
    (h : Expression.ofTokens tokens = .error error) :
    ∃ taken rest, tokens.map Token.lexeme = taken ++ rest ∧
      (∀ lexeme ∈ taken, lexeme.isKnown = true) ∧
      error.position = positionAt tokens taken.length ∧
      error.found = lexemeAt tokens taken.length ∧
      ∀ (others : List Token) (rest' : List Lexeme), others.map Token.lexeme = taken ++ rest' →
        ahead rest' = ahead rest → StopsAt others taken.length (.error error.expected) := by
  obtain ⟨taken, rest, ending, htokens, hknown, hstops⟩ := exists_stopsAt tokens
  have hself := hstops tokens rest htokens rfl
  rw [hself.ofTokens] at h
  cases ending with
  | ok result => cases h
  | error expected =>
    cases h
    exact ⟨taken, rest, htokens, hknown, rfl, rfl, hstops⟩

theorem found_eq_lexemeAt {error : ParseError} (h : Expression.ofTokens tokens = .error error) :
    error.found = lexemeAt tokens (cursor (tokens.map Token.lexeme)) := by
  obtain ⟨taken, rest, htokens, -, -, hfound, hstops⟩ := exists_stopsAt_of_error h
  rw [(hstops tokens rest htokens rfl).cursor, hfound]

theorem getElem?_cursor {error : ParseError} (h : Expression.ofTokens tokens = .error error)
    (hend : .endOfInput ∈ tokens.map Token.lexeme) :
    tokens[cursor (tokens.map Token.lexeme)]? = some ⟨error.found, error.position⟩ := by
  obtain ⟨taken, rest, htokens, hknown, hposition, hfound, hstops⟩ := exists_stopsAt_of_error h
  have hself := hstops tokens rest htokens rfl
  -- the end of input is never taken, so there is a token that is not
  have hrest : rest ≠ [] := by
    rintro rfl
    rw [htokens, List.append_nil] at hend
    cases hknown _ hend
  have hindex : taken.length < tokens.length := by
    have hlength := congrArg List.length htokens
    rw [List.length_map, List.length_append] at hlength
    have hpos := List.length_pos_iff.mpr hrest
    omega
  simp [hself.cursor, hposition, hfound, positionAt, lexemeAt, List.getElem?_eq_getElem hindex]

theorem ahead_eq_of_agree {others : List Lexeme}
    (h : ∀ i ≤ taken.length + 1, others[i]? = (taken ++ rest)[i]?) :
    ∃ rest', others = taken ++ rest' ∧ ahead rest' = ahead rest := by
  have htake : others.take (taken.length + 2) = taken ++ rest.take 2 := by
    rw [← List.take_length_add_append]
    apply List.ext_getElem?
    intro i
    by_cases hi : i < taken.length + 2
    · rw [List.getElem?_take_of_lt hi, List.getElem?_take_of_lt hi, h i (by omega)]
    · rw [List.getElem?_take_eq_none (by omega), List.getElem?_take_eq_none (by omega)]
  have hprefix : taken <+: others :=
    (htake ▸ List.prefix_append taken _ : taken <+: _).trans (List.take_prefix _ _)
  obtain ⟨rest', rfl⟩ := hprefix
  rw [List.take_length_add_append] at htake
  refine ⟨rest', rfl, ?_⟩
  rw [← ahead_take, List.append_cancel_left htake, ahead_take]

end Parser

open DiceNotation.Parser

/-- What follows the first end of input is ignored, and tokens without one are taken as ended where
the last of them starts: no parser moves past the end, and none is stopped elsewhere by it. -/
theorem Expression.ofTokens_ended (tokens : List Token) :
    Expression.ofTokens tokens = Expression.ofTokens (ended tokens) ∧
      Expression.ofTokens tokens = Expression.ofSlice tokens ∧
      cursor (tokens.map Token.lexeme) ≤ (tokens.takeWhile (·.lexeme != .endOfInput)).length ∧
      cursor ((ended tokens).map Token.lexeme) = cursor (tokens.map Token.lexeme) := by
  obtain ⟨index, ending, hindex, hstops⟩ := exists_stopsAt_of_body tokens
  have hself := hstops tokens rfl
  have hended := hstops (ended tokens) (body_ended tokens)
  refine ⟨?_, hself.ofTokens.trans hself.ofSlice.symm, ?_, hended.cursor.trans hself.cursor.symm⟩
  · rw [hself.ofTokens, hended.ofTokens, outcomeAt_ended hindex]
  · rwa [hself.cursor, ← List.length_map (f := Token.lexeme), map_lexeme_takeWhile]

/-- An error is about the token at the index where the lexemes stop a parser, and only they and the
one lexeme behind that token tell which error it is. -/
theorem Expression.ofTokens_error_of_agree {tokens : List Token} {error : ParseError}
    (h : Expression.ofTokens tokens = .error error) :
    let index := cursor (tokens.map Token.lexeme)
    index ≤ tokens.length ∧
      (∀ token, tokens[index]? = some token →
        error.position = token.offset ∧ error.found = token.lexeme) ∧
      (index = tokens.length →
        error.position = (tokens.getLast?.map Token.offset).getD 0 ∧ error.found = .endOfInput) ∧
      ∀ others : List Token,
        (∀ i ≤ index + 1, others[i]?.map Token.lexeme = tokens[i]?.map Token.lexeme) →
        cursor (others.map Token.lexeme) = index ∧
          Expression.ofTokens others =
            .error ⟨positionAt others index, error.expected, error.found⟩ := by
  obtain ⟨taken, rest, htokens, -, hposition, hfound, hstops⟩ := exists_stopsAt_of_error h
  have hself := hstops tokens rest htokens rfl
  rw [hself.cursor]
  refine ⟨?_, ?_, ?_, ?_⟩
  · have hlength := congrArg List.length htokens
    rw [List.length_map, List.length_append] at hlength
    omega
  · intro token htoken
    simp [hposition, hfound, positionAt, lexemeAt, htoken]
  · intro hend
    simp [hposition, hfound, positionAt, lexemeAt, hend]
  · intro others hagree
    obtain ⟨rest', hothers, hahead⟩ : ∃ rest', others.map Token.lexeme = taken ++ rest' ∧
        ahead rest' = ahead rest := by
      apply ahead_eq_of_agree
      intro i hi
      rw [← htokens, List.getElem?_map, List.getElem?_map, hagree i hi]
    have hother := hstops others rest' hothers hahead
    have hsame : lexemeAt others taken.length = error.found := by
      rw [hfound, lexemeAt, lexemeAt, hagree taken.length (by omega)]
    refine ⟨hother.cursor, ?_⟩
    rw [hother.ofTokens, outcomeAt, hsame]

/-- The error of `2d)+` stays the same when other tokens follow, but for the offsets. -/
theorem Expression.ofTokens_error_of_agree_of_missing_sides :
    Expression.ofTokens
        [⟨.number 2, 5⟩, ⟨.keyword .die, 9⟩, ⟨.rightParen, 1⟩, ⟨.operator .add, 3⟩] =
        .error ⟨1, .sides, .rightParen⟩ ∧
      Expression.ofTokens
        [⟨.number 2, 0⟩, ⟨.keyword .die, 0⟩, ⟨.rightParen, 7⟩, ⟨.operator .add, 2⟩,
          ⟨.word "fish", 4⟩, ⟨.endOfInput, 4⟩] = .error ⟨7, .sides, .rightParen⟩ := by
  have h : Expression.ofTokens
      [⟨.number 2, 5⟩, ⟨.keyword .die, 9⟩, ⟨.rightParen, 1⟩, ⟨.operator .add, 3⟩] =
        .error ⟨1, .sides, .rightParen⟩ := rfl
  obtain ⟨-, -, -, hothers⟩ := Expression.ofTokens_error_of_agree h
  have hagree : ∀ i ≤ 3,
      ([⟨.number 2, 0⟩, ⟨.keyword .die, 0⟩, ⟨.rightParen, 7⟩, ⟨.operator .add, 2⟩,
        ⟨.word "fish", 4⟩, ⟨.endOfInput, 4⟩] : List Token)[i]?.map Token.lexeme =
      ([⟨.number 2, 5⟩, ⟨.keyword .die, 9⟩, ⟨.rightParen, 1⟩,
        ⟨.operator .add, 3⟩] : List Token)[i]?.map Token.lexeme := by
    decide
  exact ⟨h, (hothers _ hagree).2⟩

end DiceNotation
