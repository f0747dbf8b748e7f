import DiceNotation.Proofs.ParserSound

/-!
# The parser reads what the grammar derives

Every derivation is found again from its lexemes, whatever comes after them that cannot belong to
it. With soundness this makes the parser and the grammar say the same.
-/
namespace DiceNotation.Parser
open Grammar

variable {α β : Type} {rest : List Lexeme} {room : Nat}

theorem bind_of_eq_ok {parser : Parser α} {next : α → Parser β} {pending between : Pending}
    {middle : α} (h : parser pending = .ok (middle, between)) :
    (parser >>= next) pending = next middle between := by
  show (parser pending >>= fun result => next result.1 result.2) = _
  rw [h]
  rfl

theorem addNode_bind (next : Unit → Parser β) :
    (addNode >>= next) ⟨rest, room + 1⟩ = next () ⟨rest, room⟩ := rfl

/-- Whether what comes next cannot go on with a condition. -/
def endsCondition : Option Lexeme → Bool
  | some (.number _) | some (.comparison _) => false
  | _ => true

/-- Whether what comes next, if anything, cannot go on with an expression at a level. -/
def ends : Level → Option Lexeme → Bool
  | _, none | _, some .rightParen => true
  | .factor, some (.operator _) => true
  | .product, some (.operator sign) => sign.additive
  | _, _ => false

theorem condition?_of_ends (h : endsCondition rest.head? = true) :
    condition? ⟨rest, room⟩ = .ok (none, ⟨rest, room⟩) := by
  cases rest with
  | nil => rfl
  | cons first rest =>
    cases first with
    | number | comparison => cases h
    | _ => rfl

theorem faceValue_complete {number : Nat} {value : Int64} (comparison : Comparison)
    (fits : value.toInt = number) :
    faceValue comparison ⟨.number number :: rest, room⟩ =
      .ok (⟨comparison, value⟩, ⟨rest, room⟩) :=
  faceValue_eq_ok.mpr ⟨number, rfl, rfl, rfl, fits⟩

theorem condition?_complete {text : List Lexeme} {condition : Option Condition}
    (hform : OrNone IsCondition text condition) (hends : endsCondition rest.head? = true) :
    condition? ⟨text ++ rest, room⟩ = .ok (condition, ⟨rest, room⟩) := by
  cases hform with
  | absent => exact condition?_of_ends hends
  | present hform =>
    cases hform with
    | compared comparison fits =>
      change (faceValue comparison >>= fun condition => pure (some condition)) _ = _
      exact bind_of_eq_ok (faceValue_complete comparison fits)
    | bare fits =>
      change (faceValue .equal >>= fun condition => pure (some condition)) _ = _
      exact bind_of_eq_ok (faceValue_complete .equal fits)

theorem rankOr_keyword (default rank : Rank) :
    rankOr default ⟨.keyword rank.keyword :: rest, room⟩ = .ok (rank, ⟨rest, room⟩) := by
  cases rank <;> rfl

theorem rankOr_number (default : Rank) (number : Nat) :
    rankOr default ⟨.number number :: rest, room⟩ =
      .ok (default, ⟨.number number :: rest, room⟩) := rfl

theorem amount_complete {number : Nat} {amount : UInt32} (fits : amount.toNat = number) :
    Parser.amount ⟨.number number :: rest, room⟩ = .ok (amount, ⟨rest, room⟩) :=
  amount_eq_ok.mpr ⟨by rw [fits], rfl⟩

theorem modifier?_keyword {keyword : Keyword} {body : Parser Modifier} {modifier : Modifier}
    {after : Pending} (hkeyword : modifierBody? keyword = some body)
    (hbody : body ⟨rest, room⟩ = .ok (modifier, after)) :
    modifier? ⟨.keyword keyword :: rest, room⟩ = .ok (some modifier, after) := by
  have heq : modifier? ⟨.keyword keyword :: rest, room⟩ =
      (do return some (← body) : Parser (Option Modifier)) ⟨rest, room⟩ := by
    cases keyword <;> cases hkeyword <;> rfl
  rw [heq, bind_of_eq_ok hbody]
  rfl

theorem modifier?_complete {text : List Lexeme} {modifier : Modifier}
    (hform : IsModifier text modifier) (hends : endsCondition rest.head? = true) :
    modifier? ⟨text ++ rest, room⟩ = .ok (some modifier, ⟨rest, room⟩) := by
  cases hform with
  | keep fits =>
    exact modifier?_keyword rfl
      ((bind_of_eq_ok (rankOr_number _ _)).trans (bind_of_eq_ok (amount_complete fits)))
  | keepRanked rank fits =>
    exact modifier?_keyword rfl
      ((bind_of_eq_ok (rankOr_keyword _ rank)).trans (bind_of_eq_ok (amount_complete fits)))
  | keepShort rank fits =>
    cases rank <;> exact modifier?_keyword rfl (bind_of_eq_ok (amount_complete fits))
  | drop fits =>
    exact modifier?_keyword rfl
      ((bind_of_eq_ok (rankOr_number _ _)).trans (bind_of_eq_ok (amount_complete fits)))
  | dropRanked rank fits =>
    exact modifier?_keyword rfl
      ((bind_of_eq_ok (rankOr_keyword _ rank)).trans (bind_of_eq_ok (amount_complete fits)))
  | dropShort rank fits =>
    cases rank <;> exact modifier?_keyword rfl (bind_of_eq_ok (amount_complete fits))
  | reroll reads => exact modifier?_keyword rfl (bind_of_eq_ok (condition?_complete reads hends))
  | rerollOnce reads =>
    exact modifier?_keyword rfl (bind_of_eq_ok (condition?_complete reads hends))
  | explode reads => exact modifier?_keyword rfl (bind_of_eq_ok (condition?_complete reads hends))
  | advantage => exact modifier?_keyword rfl rfl
  | disadvantage => exact modifier?_keyword rfl rfl

theorem keyword_of_isModifier {text : List Lexeme} {modifier : Modifier}
    (h : IsModifier text modifier) : ∃ keyword after, text = .keyword keyword :: after := by
  cases h <;> exact ⟨_, _, rfl⟩

theorem endsCondition_of_ends (h : ends .factor rest.head? = true) :
    endsCondition rest.head? = true := by
  cases rest with
  | nil => rfl
  | cons first rest => cases first <;> first | rfl | cases h

/-- Before the next modifier or the end of a term no condition goes on. -/
theorem endsCondition_append {text : List Lexeme} {modifiers : List Modifier}
    (hform : AreModifiers text modifiers) (hends : ends .factor rest.head? = true) :
    endsCondition (text ++ rest).head? = true := by
  cases hform with
  | nil => exact endsCondition_of_ends hends
  | cons head tail =>
    obtain ⟨keyword, after, rfl⟩ := keyword_of_isModifier head
    rfl

theorem length_le_of_areModifiers {text : List Lexeme} {modifiers : List Modifier}
    (h : AreModifiers text modifiers) : modifiers.length ≤ text.length := by
  induction h with
  | nil => exact Nat.le_refl _
  | cons head _ ih =>
    obtain ⟨keyword, after, rfl⟩ := keyword_of_isModifier head
    simp only [List.length_cons, List.length_append]
    omega

theorem modifier?_of_ends (h : ends .factor rest.head? = true) :
    modifier? ⟨rest, room⟩ = .ok (none, ⟨rest, room⟩) := by
  cases rest with
  | nil => rfl
  | cons first rest => cases first <;> first | rfl | cases h

theorem modifiersUpTo_complete {text : List Lexeme} {modifiers : List Modifier} {most : Nat}
    (hform : AreModifiers text modifiers) (hends : ends .factor rest.head? = true)
    (hmost : modifiers.length ≤ most) :
    modifiersUpTo most ⟨text ++ rest, room⟩ = .ok (modifiers, ⟨rest, room⟩) := by
  induction hform generalizing most with
  | nil =>
    cases most with
    | zero => rfl
    | succ most => exact bind_of_eq_ok (modifier?_of_ends hends)
  | @cons first others modifier modifiers head tail ih =>
    obtain ⟨most, rfl⟩ := Nat.exists_eq_add_one_of_ne_zero (Nat.ne_zero_of_lt hmost)
    have hnext : endsCondition (others ++ rest).head? = true := endsCondition_append tail hends
    have hothers := ih (Nat.le_of_succ_le_succ hmost)
    rw [List.append_assoc, modifiersUpTo, bind_of_eq_ok (modifier?_complete head hnext)]
    exact bind_of_eq_ok hothers

theorem modifiers_complete {text : List Lexeme} {modifiers : List Modifier}
    (hform : AreModifiers text modifiers) (hends : ends .factor rest.head? = true) :
    Parser.modifiers ⟨text ++ rest, room⟩ = .ok (modifiers, ⟨rest, room⟩) := by
  refine modifiersUpTo_complete hform hends ?_
  rw [List.length_append]
  exact Nat.le_trans (length_le_of_areModifiers hform) (Nat.le_add_right ..)

theorem sides_complete {text : List Lexeme} {sides : UInt32} (hform : IsSides text sides) :
    Parser.sides ⟨text ++ rest, room⟩ = .ok (sides, ⟨rest, room⟩) :=
  sides_eq_ok.mpr ⟨text, rfl, hform, rfl⟩

theorem dice_die (count : UInt32) :
    dice count ⟨.keyword .die :: rest, room + 1⟩ =
      (do return .dice ⟨count, ← Parser.sides, ← Parser.modifiers⟩ : Parser Expression)
        ⟨rest, room⟩ := rfl

theorem dice_complete {count sides : UInt32} {modifiers : List Modifier}
    {second third : List Lexeme} (hsides : IsSides second sides)
    (hmodifiers : AreModifiers third modifiers)
    (hends : ends .factor rest.head? = true) :
    dice count ⟨.keyword .die :: (second ++ third ++ rest), room + 1⟩ =
      .ok (.dice ⟨count, sides, modifiers⟩, ⟨rest, room⟩) := by
  rw [dice_die, List.append_assoc, bind_of_eq_ok (sides_complete hsides)]
  exact bind_of_eq_ok (modifiers_complete hmodifiers hends)

theorem term_complete {levels : Nat} {text : List Lexeme} {term : DiceTerm}
    (hform : IsTerm text term) (hends : ends .factor rest.head? = true) :
    factor (levels + 1) ⟨text ++ rest, room + 1⟩ = .ok (.dice term, ⟨rest, room⟩) := by
  obtain ⟨counts, faces, changes⟩ := hform
  rw [List.append_assoc, List.append_assoc, List.cons_append, ← List.append_assoc]
  cases counts with
  | one => exact dice_complete faces changes hends
  | @number number _ positive fits =>
    change (if number = 0 then reject .positiveCount
      else do dice (← takeNumber word? .smallerCount number) : Parser Expression) _ = _
    have hcount := word?_eq_some_iff.mpr fits
    rw [if_neg (Nat.ne_of_gt positive), List.singleton_append,
      bind_of_eq_ok (takeNumber_eq_ok.mpr ⟨hcount, rfl⟩)]
    exact dice_complete faces changes hends

theorem literal_complete {levels number : Nat} {value : Int64} (fits : value.toInt = number)
    (hends : ends .factor rest.head? = true) :
    factor (levels + 1) ⟨.number number :: rest, room + 1⟩ =
      .ok (.literal value, ⟨rest, room⟩) := by
  have hdie : rest.head? ≠ some (.keyword .die) := by
    intro h
    rw [h] at hends
    cases hends
  rw [factor_number hdie, literal?_eq_some_iff.mpr fits]
  rfl

section Chain

variable {operator? : Lexeme → Option Operator} {operand : Parser Expression}

/-- After some text a chain has joined what that text stands for and may still join more. -/
def Joined (operator? : Lexeme → Option Operator) (operand : Parser Expression)
    (follows : Option Lexeme → Bool) (text : List Lexeme) (left : Expression) : Prop :=
  ∀ ⦃rest room⦄, follows rest.head? = true →
    ∃ most, room ≤ most ∧ chain operator? operand ⟨text ++ rest, room + left.size⟩ =
      chainUpTo operator? operand most left ⟨rest, room⟩

theorem joined_first {follows : Option Lexeme → Bool} {text : List Lexeme} {left : Expression}
    (hleft : ∀ ⦃rest room⦄, follows rest.head? = true →
      operand ⟨text ++ rest, room + left.size⟩ = .ok (left, ⟨rest, room⟩)) :
    Joined operator? operand follows text left :=
  fun _ room h => ⟨room, Nat.le_refl _, bind_of_eq_ok (hleft h)⟩

theorem chainUpTo_operator {lexeme : Lexeme} {sign : Operator} {most : Nat}
    {left right : Expression} {text : List Lexeme} (hsign : operator? lexeme = some sign)
    (hright : operand ⟨text ++ rest, room + right.size⟩ = .ok (right, ⟨rest, room⟩)) :
    chainUpTo operator? operand (most + 1) left ⟨lexeme :: text ++ rest, room + right.size + 1⟩ =
      chainUpTo operator? operand most (.binary sign left right) ⟨rest, room⟩ := by
  conv => lhs; unfold chainUpTo
  rw [peek_bind]
  simp only [List.cons_append, List.head?_cons, Option.bind_some, hsign]
  rw [advance_bind, addNode_bind]
  exact bind_of_eq_ok hright

theorem joined_next {follows : Option Lexeme → Bool} {first second : List Lexeme}
    {left right : Expression} {lexeme : Lexeme} {sign : Operator}
    (hsign : operator? lexeme = some sign) (hlexeme : follows (some lexeme) = true)
    (hleft : Joined operator? operand follows first left)
    (hright : ∀ ⦃rest room⦄, follows rest.head? = true →
      operand ⟨second ++ rest, room + right.size⟩ = .ok (right, ⟨rest, room⟩)) :
    Joined operator? operand follows (first ++ lexeme :: second) (.binary sign left right) := by
  intro rest room hrest
  obtain ⟨most, hmost, hchain⟩ :=
    @hleft (lexeme :: second ++ rest) (room + right.size + 1) hlexeme
  obtain ⟨most, rfl⟩ := Nat.exists_eq_add_one_of_ne_zero (Nat.ne_zero_of_lt hmost)
  refine ⟨most, by omega, ?_⟩
  rw [chainUpTo_operator hsign (hright hrest)] at hchain
  rw [← hchain, List.append_assoc, List.cons_append, Expression.size]
  congr 2
  omega

theorem joined_complete {follows : Option Lexeme → Bool} {text : List Lexeme} {left : Expression}
    (hleft : Joined operator? operand follows text left) (hfollows : follows rest.head? = true)
    (hends : rest.head?.bind operator? = none) :
    chain operator? operand ⟨text ++ rest, room + left.size⟩ = .ok (left, ⟨rest, room⟩) := by
  obtain ⟨most, -, hchain⟩ := hleft hfollows
  rw [hchain]
  unfold chainUpTo
  rw [peek_bind, hends]
  rfl

end Chain

/-- How the parser of a level comes upon an expression; operators of the level may still follow. -/
def Found (levels : Nat) : Level → List Lexeme → Expression → Prop
  | .factor, text, expression => ∀ ⦃rest room⦄, ends .factor rest.head? = true →
      factor levels ⟨text ++ rest, room + expression.size⟩ = .ok (expression, ⟨rest, room⟩)
  | .product, text, expression =>
      Joined multiplicative? (factor levels) (ends .factor) text expression
  | .sum, text, expression =>
      Joined additive? (chain multiplicative? (factor levels)) (ends .product) text expression

theorem ends_factor_of_product {next : Option Lexeme} (h : ends .product next = true) :
    ends .factor next = true ∧ next.bind multiplicative? = none := by
  cases next with
  | none => exact ⟨rfl, rfl⟩
  | some lexeme =>
    cases lexeme with
    | operator sign => cases sign <;> first | exact ⟨rfl, rfl⟩ | cases h
    | rightParen => exact ⟨rfl, rfl⟩
    | _ => cases h

theorem ends_product_of_sum {next : Option Lexeme} (h : ends .sum next = true) :
    ends .product next = true ∧ next.bind additive? = none := by
  cases next with
  | none => exact ⟨rfl, rfl⟩
  | some lexeme =>
    cases lexeme with
    | rightParen => exact ⟨rfl, rfl⟩
    | _ => cases h

theorem Found.product {levels : Nat} {text : List Lexeme} {expression : Expression}
    (h : Found levels .product text expression) (hends : ends .product rest.head? = true) :
    chain multiplicative? (factor levels) ⟨text ++ rest, room + expression.size⟩ =
      .ok (expression, ⟨rest, room⟩) :=
  have ⟨hfactor, hsign⟩ := ends_factor_of_product hends
  joined_complete h hfactor hsign

theorem Found.sum {levels : Nat} {text : List Lexeme} {expression : Expression}
    (h : Found levels .sum text expression) (hends : ends .sum rest.head? = true) :
    Parser.sum (factor levels) ⟨text ++ rest, room + expression.size⟩ =
      .ok (expression, ⟨rest, room⟩) :=
  have ⟨hproduct, hsign⟩ := ends_product_of_sum hends
  joined_complete h hproduct hsign

theorem found_of_derives {level : Level} {text : List Lexeme} {expression : Expression}
    (h : Derives level text expression) :
    ∀ levels, expression.depth < levels → Found levels level text expression := by
  induction h with
  | product _ ih => exact fun levels hdepth => joined_first fun _ _ => (ih levels hdepth).product
  | factor _ ih => exact fun levels hdepth => joined_first (ih levels hdepth)
  | additive sign kind _ _ ihleft ihright =>
    intro levels hdepth
    rw [Expression.depth, Nat.max_lt] at hdepth
    have hsign : additive? (.operator sign) = some sign := additive?_eq_some.mpr ⟨rfl, kind⟩
    have hright := ihright levels hdepth.2
    exact joined_next hsign kind (ihleft levels hdepth.1) fun _ _ => hright.product
  | multiplicative sign kind _ _ ihleft ihright =>
    intro levels hdepth
    rw [Expression.depth, Nat.max_lt] at hdepth
    have hsign : multiplicative? (.operator sign) = some sign :=
      multiplicative?_eq_some.mpr ⟨rfl, kind⟩
    exact joined_next hsign rfl (ihleft levels hdepth.1) (ihright levels hdepth.2)
  | negate _ ih =>
    intro levels hdepth rest room hends
    obtain ⟨levels, rfl⟩ := Nat.exists_eq_add_one_of_ne_zero (Nat.ne_zero_of_lt hdepth)
    have hinner := ih levels (Nat.lt_of_succ_lt_succ hdepth)
    rw [List.cons_append, factor_minus, Expression.size, ← Nat.add_assoc, addNode_bind,
      advance_bind]
    exact bind_of_eq_ok (hinner hends)
  | dice reads =>
    intro levels hdepth rest room hends
    obtain ⟨levels, rfl⟩ := Nat.exists_eq_add_one_of_ne_zero (Nat.ne_zero_of_lt hdepth)
    exact term_complete reads hends
  | literal fits =>
    intro levels hdepth rest room hends
    obtain ⟨levels, rfl⟩ := Nat.exists_eq_add_one_of_ne_zero (Nat.ne_zero_of_lt hdepth)
    exact literal_complete fits hends
  | group _ ih =>
    intro levels hdepth rest room hends
    obtain ⟨levels, rfl⟩ := Nat.exists_eq_add_one_of_ne_zero (Nat.ne_zero_of_lt hdepth)
    have hinner := ih levels (Nat.lt_of_succ_lt_succ hdepth)
    rw [List.cons_append, List.cons_append, List.append_assoc, factor_paren, Expression.size,
      ← Nat.add_assoc, addNode_bind, advance_bind, bind_of_eq_ok (hinner.sum rfl)]
    rfl

theorem sum_complete {text : List Lexeme} {expression : Expression}
    (h : Derives .sum text expression) (levels room : Nat) (hdepth : expression.depth < levels) :
    Parser.sum (factor levels) ⟨text, room + expression.size⟩ = .ok (expression, ⟨[], room⟩) := by
  have hsum : Parser.sum (factor levels) ⟨text ++ [], room + expression.size⟩ = _ :=
    (found_of_derives h levels hdepth).sum rfl
  rwa [List.append_nil] at hsum

theorem line_complete {text : List Lexeme} {expression : Expression}
    (h : Derives .sum text expression) (hdepth : expression.depth < maxNesting) (room : Nat) :
    line ⟨text, room + expression.size⟩ = .ok (expression, ⟨[], room⟩) :=
  bind_of_eq_ok (sum_complete h maxNesting room hdepth)

theorem ofTokens_eq_ok_iff {tokens : List Token} {expression : Expression} :
    Expression.ofTokens tokens = .ok expression ↔
      Derives .sum (body tokens) expression ∧ expression.size ≤ maxNodes ∧
        expression.depth < maxNesting := by
  unfold Expression.ofTokens
  constructor
  · intro h
    split at h
    · cases h
      exact line_sound ‹_›
    · cases h
  · rintro ⟨hform, hsize, hdepth⟩
    have hline := line_complete hform hdepth (maxNodes - expression.size)
    rw [Nat.sub_add_cancel hsize] at hline
    rw [hline]

/-- The grammar is unambiguous: a parser with room enough for either of two trees gives both. -/
theorem eq_of_derives {text : List Lexeme} {left right : Expression}
    (hleft : Derives .sum text left) (hright : Derives .sum text right) : left = right := by
  have hleft' := sum_complete hleft (max left.depth right.depth + 1) right.size
    (Nat.lt_succ_of_le (Nat.le_max_left ..))
  have hright' := sum_complete hright (max left.depth right.depth + 1) left.size
    (Nat.lt_succ_of_le (Nat.le_max_right ..))
  rw [Nat.add_comm right.size, hright'] at hleft'
  cases hleft'
  rfl

/-- The parser accepts the grammar within two limits, a leaf being inside at most 127 groups and
minus signs, and no lexemes stand for two trees. -/
theorem ofTokens_reads_grammar (tokens : List Token) :
    (∀ expression, Expression.ofTokens tokens = .ok expression ↔
      Derives .sum (body tokens) expression ∧ expression.size ≤ 10000 ∧ expression.depth ≤ 127) ∧
    ∀ left right, Derives .sum (body tokens) left → Derives .sum (body tokens) right →
      left = right := by
  refine ⟨fun expression => ?_, fun left right => eq_of_derives⟩
  rw [ofTokens_eq_ok_iff]
  exact and_congr_right fun _ => and_congr_right fun _ => Nat.lt_succ_iff

end DiceNotation.Parser
