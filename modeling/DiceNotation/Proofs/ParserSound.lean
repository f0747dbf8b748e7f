import DiceNotation.Expression.Parser
import DiceNotation.Proofs.Grammar

/-!
# What the parser reads is derived by the grammar

Each function of the parser takes lexemes off the rest that stand for what it gives, and takes room
for exactly the nodes that it builds.
-/
namespace DiceNotation.Parser
open Grammar

variable {α β : Type} {rest : List Lexeme} {room : Nat} {after : Pending}

theorem bind_eq_ok {parser : Parser α} {next : α → Parser β} {pending : Pending} {value : β} :
    (parser >>= next) pending = .ok (value, after) ↔
      ∃ middle between, parser pending = .ok (middle, between) ∧
        next middle between = .ok (value, after) := by
  show (parser pending >>= fun result => next result.1 result.2) = _ ↔ _
  cases parser pending with
  | error rejection => exact ⟨nofun, nofun⟩
  | ok result =>
    obtain ⟨middle, between⟩ := result
    constructor
    · intro h
      exact ⟨middle, between, rfl, h⟩
    · rintro ⟨_, _, heq, h⟩
      cases heq
      exact h

theorem pure_eq_ok {value result : α} {pending : Pending} :
    (pure value : Parser α) pending = .ok (result, after) ↔ result = value ∧ after = pending := by
  constructor
  · intro h
    cases h
    exact ⟨rfl, rfl⟩
  · rintro ⟨rfl, rfl⟩
    rfl

theorem peek_bind (next : Option Lexeme → Parser β) (pending : Pending) :
    (peek >>= next) pending = next pending.rest.head? pending := rfl

theorem advance_bind (next : Unit → Parser β) (first : Lexeme) :
    (advance >>= next) ⟨first :: rest, room⟩ = next () ⟨rest, room⟩ := rfl

theorem addNode_bind_eq_ok {next : Unit → Parser β} {value : β} :
    (addNode >>= next) ⟨rest, room⟩ = .ok (value, after) ↔
      ∃ room', room = room' + 1 ∧ next () ⟨rest, room'⟩ = .ok (value, after) := by
  cases room with
  | zero => exact ⟨nofun, nofun⟩
  | succ room =>
    constructor
    · intro h
      exact ⟨room, rfl, h⟩
    · rintro ⟨_, hroom, h⟩
      cases hroom
      exact h

theorem takeNumber_eq_ok {fit? : Nat → Option α} {expected : Expected} {number : Nat} {value : α} :
    takeNumber fit? expected number ⟨.number number :: rest, room⟩ = .ok (value, after) ↔
      fit? number = some value ∧ after = ⟨rest, room⟩ := by
  unfold takeNumber
  cases fit? number with
  | none => exact ⟨nofun, nofun⟩
  | some found =>
    show (pure found : Parser α) ⟨rest, room⟩ = _ ↔ _
    rw [pure_eq_ok, Option.some.injEq, eq_comm]

theorem amount_eq_ok {amount : UInt32} :
    Parser.amount ⟨rest, room⟩ = .ok (amount, after) ↔
      rest = .number amount.toNat :: after.rest ∧ room = after.room := by
  unfold Parser.amount
  rw [peek_bind]
  cases rest with
  | nil => exact ⟨nofun, nofun⟩
  | cons first rest =>
    cases first with
    | number number =>
      show takeNumber _ _ _ _ = _ ↔ _
      rw [takeNumber_eq_ok, word?_eq_some_iff]
      constructor
      · rintro ⟨rfl, rfl⟩
        exact ⟨rfl, rfl⟩
      · rintro ⟨hrest, rfl⟩
        cases hrest
        exact ⟨rfl, rfl⟩
    | _ => exact ⟨nofun, nofun⟩

theorem faceValue_eq_ok {comparison : Comparison} {condition : Condition} :
    faceValue comparison ⟨rest, room⟩ = .ok (condition, after) ↔
      ∃ number, rest = .number number :: after.rest ∧ room = after.room ∧
        condition.comparison = comparison ∧ condition.value.toInt = number := by
  unfold faceValue
  rw [peek_bind]
  cases rest with
  | nil => exact ⟨nofun, nofun⟩
  | cons first rest =>
    cases first with
    | number number =>
      show ((takeNumber _ _ _ >>= _) : Parser _) _ = _ ↔ _
      rw [bind_eq_ok]
      constructor
      · rintro ⟨value, between, htake, hpure⟩
        obtain ⟨hfit, rfl⟩ := takeNumber_eq_ok.mp htake
        obtain ⟨rfl, rfl⟩ := pure_eq_ok.mp hpure
        exact ⟨number, rfl, rfl, rfl, literal?_eq_some_iff.mp hfit⟩
      · rintro ⟨_, hrest, rfl, rfl, hfit⟩
        cases hrest
        have hvalue : literal? number = some condition.value := literal?_eq_some_iff.mpr hfit
        exact ⟨condition.value, after, takeNumber_eq_ok.mpr ⟨hvalue, rfl⟩, rfl⟩
    | _ => exact ⟨nofun, nofun⟩

theorem sides_eq_ok {sides : UInt32} :
    Parser.sides ⟨rest, room⟩ = .ok (sides, after) ↔
      ∃ text, rest = text ++ after.rest ∧ IsSides text sides ∧ room = after.room := by
  unfold Parser.sides
  rw [peek_bind]
  constructor
  · intro h
    cases rest with
    | nil => cases h
    | cons first rest =>
      cases first with
      | number number =>
        obtain ⟨hfit, rfl⟩ := takeNumber_eq_ok.mp h
        exact ⟨[.number number], rfl, .number (word?_eq_some_iff.mp hfit), rfl⟩
      | percent =>
        obtain ⟨rfl, rfl⟩ := pure_eq_ok.mp h
        exact ⟨[.percent], rfl, .percent, rfl⟩
      | _ => cases h
  · rintro ⟨text, rfl, hsides, rfl⟩
    cases hsides with
    | percent => rfl
    | number fits => exact takeNumber_eq_ok.mpr ⟨word?_eq_some_iff.mpr fits, rfl⟩

/-- What a parser gives stands in the lexemes that it takes, and it takes room for so many nodes. -/
def Sound (form : List Lexeme → α → Prop) (nodes : α → Nat) (parser : Parser α) : Prop :=
  ∀ ⦃rest room value after⦄, parser ⟨rest, room⟩ = .ok (value, after) →
    ∃ text, rest = text ++ after.rest ∧ form text value ∧ room = after.room + nodes value

theorem condition?_sound : Sound (OrNone IsCondition) (fun _ => 0) condition? := by
  intro rest room value after h
  unfold condition? at h
  rw [peek_bind] at h
  have absent (h : (pure none : Parser (Option Condition)) ⟨rest, room⟩ = .ok (value, after)) :
      ∃ text, rest = text ++ after.rest ∧ OrNone IsCondition text value ∧ room = after.room := by
    obtain ⟨rfl, rfl⟩ := pure_eq_ok.mp h
    exact ⟨[], rfl, .absent, rfl⟩
  cases rest with
  | nil => exact absent h
  | cons first rest =>
    cases first with
    | comparison comparison =>
      simp only [List.head?_cons, advance_bind] at h
      obtain ⟨condition, between, hface, hpure⟩ := bind_eq_ok.mp h
      obtain ⟨rfl, rfl⟩ := pure_eq_ok.mp hpure
      obtain ⟨number, rfl, rfl, rfl, fits⟩ := faceValue_eq_ok.mp hface
      exact ⟨[.comparison _, .number number], rfl, .present (.compared _ fits), rfl⟩
    | number number =>
      obtain ⟨condition, between, hface, hpure⟩ := bind_eq_ok.mp h
      obtain ⟨rfl, rfl⟩ := pure_eq_ok.mp hpure
      obtain ⟨_, hrest, rfl, hcomparison, fits⟩ := faceValue_eq_ok.mp hface
      cases hrest
      obtain ⟨comparison, value⟩ := condition
      subst hcomparison
      exact ⟨[.number number], rfl, .present (.bare fits), rfl⟩
    | _ => exact absent h

theorem rankOr_sound {default rank : Rank} (h : rankOr default ⟨rest, room⟩ = .ok (rank, after)) :
    room = after.room ∧
      (rest = .keyword rank.keyword :: after.rest ∨ rest = after.rest ∧ rank = default) := by
  unfold rankOr at h
  rw [peek_bind] at h
  have absent (h : (pure default : Parser Rank) ⟨rest, room⟩ = .ok (rank, after)) :
      room = after.room ∧
        (rest = .keyword rank.keyword :: after.rest ∨ rest = after.rest ∧ rank = default) := by
    obtain ⟨rfl, rfl⟩ := pure_eq_ok.mp h
    exact ⟨rfl, .inr ⟨rfl, rfl⟩⟩
  cases rest with
  | nil => exact absent h
  | cons first rest =>
    cases first with
    | keyword keyword =>
      cases keyword with
      | highest | lowest =>
        simp only [List.head?_cons, advance_bind] at h
        obtain ⟨rfl, rfl⟩ := pure_eq_ok.mp h
        exact ⟨rfl, .inl rfl⟩
      | _ => exact absent h
    | _ => exact absent h

/-- A modifier that takes an amount after its keyword. -/
theorem amount_bind_sound {keyword : Keyword} {build : UInt32 → Modifier}
    (form : ∀ amount, IsModifier [.keyword keyword, .number amount.toNat] (build amount)) :
    Sound (fun text => IsModifier (.keyword keyword :: text)) (fun _ => 0)
      (do return build (← amount)) := by
  intro rest room modifier after h
  obtain ⟨amount, between, hamount, hpure⟩ := bind_eq_ok.mp h
  obtain ⟨rfl, rfl⟩ := pure_eq_ok.mp hpure
  obtain ⟨rfl, rfl⟩ := amount_eq_ok.mp hamount
  exact ⟨[.number amount.toNat], rfl, form amount, rfl⟩

theorem rankOr_bind_sound {keyword : Keyword} {default : Rank} {build : Rank → UInt32 → Modifier}
    (ranked : ∀ rank amount, IsModifier
      [.keyword keyword, .keyword rank.keyword, .number amount.toNat] (build rank amount))
    (plain : ∀ amount, IsModifier [.keyword keyword, .number amount.toNat] (build default amount)) :
    Sound (fun text => IsModifier (.keyword keyword :: text)) (fun _ => 0)
      (do return build (← rankOr default) (← amount)) := by
  intro rest room modifier after h
  obtain ⟨rank, between, hrank, hbody⟩ := bind_eq_ok.mp h
  obtain ⟨amount, last, hamount, hpure⟩ := bind_eq_ok.mp hbody
  obtain ⟨rfl, rfl⟩ := pure_eq_ok.mp hpure
  obtain ⟨hrest, hroom⟩ := amount_eq_ok.mp hamount
  obtain ⟨rfl, rfl | ⟨rfl, rfl⟩⟩ := rankOr_sound hrank
  · exact ⟨[.keyword rank.keyword, .number amount.toNat], by simp [hrest], ranked _ _, hroom⟩
  · exact ⟨[.number amount.toNat], hrest, plain _, hroom⟩

theorem condition?_bind_sound {keyword : Keyword} {build : Option Condition → Modifier}
    (form : ∀ text condition, OrNone IsCondition text condition →
      IsModifier (.keyword keyword :: text) (build condition)) :
    Sound (fun text => IsModifier (.keyword keyword :: text)) (fun _ => 0)
      (do return build (← condition?)) := by
  intro rest room modifier after h
  obtain ⟨condition, between, hcondition, hpure⟩ := bind_eq_ok.mp h
  obtain ⟨rfl, rfl⟩ := pure_eq_ok.mp hpure
  obtain ⟨text, hrest, hform, hroom⟩ := condition?_sound hcondition
  exact ⟨text, hrest, form _ _ hform, hroom⟩

theorem pure_sound {form : List Lexeme → α → Prop} {value : α} (h : form [] value) :
    Sound form (fun _ => 0) (pure value : Parser α) := by
  intro rest room result after hpure
  obtain ⟨rfl, rfl⟩ := pure_eq_ok.mp hpure
  exact ⟨[], rfl, h, rfl⟩

theorem modifierBody?_sound {keyword : Keyword} {body : Parser Modifier}
    (h : modifierBody? keyword = some body) :
    Sound (fun text => IsModifier (.keyword keyword :: text)) (fun _ => 0) body := by
  cases keyword <;> cases h
  case keep => exact rankOr_bind_sound (fun rank _ => .keepRanked rank rfl) fun _ => .keep rfl
  case drop => exact rankOr_bind_sound (fun rank _ => .dropRanked rank rfl) fun _ => .drop rfl
  case keepHighest => exact amount_bind_sound fun _ => .keepShort .highest rfl
  case keepLowest => exact amount_bind_sound fun _ => .keepShort .lowest rfl
  case dropHighest => exact amount_bind_sound fun _ => .dropShort .highest rfl
  case dropLowest => exact amount_bind_sound fun _ => .dropShort .lowest rfl
  case reroll => exact condition?_bind_sound fun _ _ => .reroll
  case rerollOnce => exact condition?_bind_sound fun _ _ => .rerollOnce
  case explode => exact condition?_bind_sound fun _ _ => .explode
  case advantage => exact pure_sound .advantage
  case disadvantage => exact pure_sound .disadvantage

theorem modifier?_sound : Sound (OrNone IsModifier) (fun _ => 0) modifier? := by
  intro rest room modifier after h
  unfold modifier? at h
  rw [peek_bind] at h
  have absent := @pure_sound _ (OrNone IsModifier) none .absent
  cases rest with
  | nil => exact absent h
  | cons first rest =>
    cases first with
    | keyword keyword =>
      by_cases hdie : keyword = .die
      · subst hdie
        exact absent h
      simp only [List.head?_cons] at h
      cases hbody : modifierBody? keyword with
      | none => simp [hbody, reject] at h
      | some body =>
        simp only [hbody, advance_bind] at h
        obtain ⟨modifier, between, hmodifier, hpure⟩ := bind_eq_ok.mp h
        obtain ⟨rfl, rfl⟩ := pure_eq_ok.mp hpure
        obtain ⟨text, rfl, hform, hroom⟩ := modifierBody?_sound hbody hmodifier
        exact ⟨.keyword keyword :: text, rfl, .present hform, hroom⟩
    | _ => exact absent h

theorem modifiersUpTo_sound (most : Nat) :
    Sound AreModifiers (fun _ => 0) (modifiersUpTo most) := by
  induction most with
  | zero => exact pure_sound .nil
  | succ most ih =>
    intro rest room modifiers after h
    obtain ⟨modifier, between, hmodifier, hrest⟩ := bind_eq_ok.mp h
    obtain ⟨first, rfl, hfirst, hroom⟩ := modifier?_sound hmodifier
    cases hfirst with
    | absent =>
      obtain ⟨rfl, rfl⟩ := pure_eq_ok.mp hrest
      exact ⟨[], rfl, .nil, hroom⟩
    | present hfirst =>
      obtain ⟨others, last, hothers, hpure⟩ := bind_eq_ok.mp hrest
      obtain ⟨rfl, rfl⟩ := pure_eq_ok.mp hpure
      obtain ⟨second, hsecond, hforms, hroom'⟩ := ih hothers
      have htext : first ++ between.rest = first ++ second ++ after.rest := by simp [hsecond]
      exact ⟨first ++ second, htext, .cons hfirst hforms, hroom.trans hroom'⟩

theorem dice_sound {count : UInt32} {expression : Expression}
    (h : dice count ⟨.keyword .die :: rest, room⟩ = .ok (expression, after)) :
    ∃ sides modifiers second third, rest = second ++ third ++ after.rest ∧ IsSides second sides ∧
      AreModifiers third modifiers ∧ expression = .dice ⟨count, sides, modifiers⟩ ∧
      room = after.room + 1 := by
  unfold dice at h
  obtain ⟨room, rfl, hdie⟩ := addNode_bind_eq_ok.mp h
  rw [advance_bind] at hdie
  obtain ⟨sides, between, hsides, hrest⟩ := bind_eq_ok.mp hdie
  obtain ⟨second, rfl, hsecond, rfl⟩ := sides_eq_ok.mp hsides
  obtain ⟨modifiers, last, hmodifiers, hpure⟩ := bind_eq_ok.mp hrest
  obtain ⟨rfl, rfl⟩ := pure_eq_ok.mp hpure
  obtain ⟨third, hrest, hthird, hroom⟩ := modifiersUpTo_sound _ hmodifiers
  have htext : second ++ between.rest = second ++ third ++ after.rest := by simp [hrest]
  exact ⟨sides, modifiers, second, third, htext, hsecond, hthird, rfl, congrArg (· + 1) hroom⟩

theorem additive?_eq_some {lexeme : Lexeme} {sign : Operator} :
    additive? lexeme = some sign ↔ lexeme = .operator sign ∧ sign.additive = true := by
  constructor
  · intro h
    unfold additive? at h
    split at h <;> cases h <;> exact ⟨rfl, rfl⟩
  · rintro ⟨rfl, hkind⟩
    cases sign <;> first | rfl | cases hkind

theorem multiplicative?_eq_some {lexeme : Lexeme} {sign : Operator} :
    multiplicative? lexeme = some sign ↔ lexeme = .operator sign ∧ sign.additive = false := by
  constructor
  · intro h
    unfold multiplicative? at h
    split at h <;> cases h <;> exact ⟨rfl, rfl⟩
  · rintro ⟨rfl, hkind⟩
    cases sign <;> first | rfl | cases hkind

/-- A chain ends, or an operator and an operand are joined to it. -/
theorem chainUpTo_eq_ok {operator? : Lexeme → Option Operator} {operand : Parser Expression}
    {most : Nat} {left expression : Expression}
    (h : chainUpTo operator? operand most left ⟨rest, room⟩ = .ok (expression, after)) :
    expression = left ∧ after = ⟨rest, room⟩ ∨
      ∃ most' lexeme sign rest' room' right between, most = most' + 1 ∧ rest = lexeme :: rest' ∧
        operator? lexeme = some sign ∧ room = room' + 1 ∧
        operand ⟨rest', room'⟩ = .ok (right, between) ∧
        chainUpTo operator? operand most' (.binary sign left right) between =
          .ok (expression, after) := by
  unfold chainUpTo at h
  rw [peek_bind] at h
  cases hsign : rest.head?.bind operator? with
  | none =>
    simp only [hsign] at h
    exact .inl (pure_eq_ok.mp h)
  | some sign =>
    obtain ⟨lexeme, hhead, hsign'⟩ := Option.bind_eq_some_iff.mp hsign
    obtain ⟨rest', rfl⟩ := List.head?_eq_some_iff.mp hhead
    simp only [hsign, advance_bind] at h
    obtain ⟨room', rfl, hnode⟩ := addNode_bind_eq_ok.mp h
    cases most with
    | zero => cases hnode
    | succ most =>
      obtain ⟨right, between, hright, hchain⟩ := bind_eq_ok.mp hnode
      exact .inr ⟨most, lexeme, sign, rest', room', right, between, rfl, rfl, hsign', rfl, hright,
        hchain⟩

section Chain

variable {operator? : Lexeme → Option Operator} {operand : Parser Expression}
  {inner outer : List Lexeme → Expression → Prop}

/-- A chain is sound for what holds of its left end and is kept by joining an operand. -/
theorem chainUpTo_sound (hoperand : Sound inner Expression.size operand)
    (join : ∀ {first second left right lexeme sign}, operator? lexeme = some sign →
      outer first left → inner second right →
      outer (first ++ lexeme :: second) (.binary sign left right))
    {most : Nat} {first : List Lexeme} {left expression : Expression} (hleft : outer first left)
    (h : chainUpTo operator? operand most left ⟨rest, room⟩ = .ok (expression, after)) :
    ∃ text, first ++ rest = text ++ after.rest ∧ outer text expression ∧
      left.size + room = after.room + expression.size := by
  induction most generalizing first left rest room with
  | zero =>
    obtain ⟨rfl, rfl⟩ | ⟨_, _, _, _, _, _, _, hmost, _⟩ := chainUpTo_eq_ok h
    · exact ⟨first, rfl, hleft, Nat.add_comm ..⟩
    · cases hmost
  | succ most ih =>
    obtain ⟨rfl, rfl⟩ | ⟨_, lexeme, sign, _, room, right, between, hmost, rfl, hsign, rfl, hright,
      hchain⟩ := chainUpTo_eq_ok h
    · exact ⟨first, rfl, hleft, Nat.add_comm ..⟩
    · cases hmost
      obtain ⟨second, rfl, hsecond, hroom⟩ := hoperand hright
      obtain ⟨text, htext, hform, hsize⟩ := ih (join hsign hleft hsecond) hchain
      rw [List.append_assoc] at htext
      refine ⟨text, htext, hform, ?_⟩
      rw [Expression.size] at hsize
      omega

theorem chain_sound (hoperand : Sound inner Expression.size operand)
    (start : ∀ {text expression}, inner text expression → outer text expression)
    (join : ∀ {first second left right lexeme sign}, operator? lexeme = some sign →
      outer first left → inner second right →
      outer (first ++ lexeme :: second) (.binary sign left right)) :
    Sound outer Expression.size (chain operator? operand) := by
  intro rest room expression after h
  obtain ⟨left, between, hleft, hchain⟩ := bind_eq_ok.mp h
  obtain ⟨first, rfl, hfirst, hroom⟩ := hoperand hleft
  obtain ⟨text, htext, hform, hsize⟩ := chainUpTo_sound hoperand join (start hfirst) hchain
  exact ⟨text, htext, hform, by omega⟩

end Chain

/-- What an expression's lexemes derive at a level within so many nested factors. -/
def Nested (levels : Nat) (level : Level) (text : List Lexeme) (expression : Expression) : Prop :=
  Derives level text expression ∧ expression.depth < levels

theorem product_sound {levels : Nat} {factor : Parser Expression}
    (hfactor : Sound (Nested levels .factor) Expression.size factor) :
    Sound (Nested levels .product) Expression.size (chain multiplicative? factor) := by
  refine chain_sound hfactor (fun h => ⟨.factor h.1, h.2⟩) ?_
  rintro first second left right lexeme sign hsign ⟨hleft, hdepth⟩ ⟨hright, hdepth'⟩
  obtain ⟨rfl, hkind⟩ := multiplicative?_eq_some.mp hsign
  have hform := Derives.multiplicative sign hkind hleft hright
  exact ⟨hform, Nat.max_lt.mpr ⟨hdepth, hdepth'⟩⟩

theorem sum_sound {levels : Nat} {factor : Parser Expression}
    (hfactor : Sound (Nested levels .factor) Expression.size factor) :
    Sound (Nested levels .sum) Expression.size (sum factor) := by
  refine chain_sound (product_sound hfactor) (fun h => ⟨.product h.1, h.2⟩) ?_
  rintro first second left right lexeme sign hsign ⟨hleft, hdepth⟩ ⟨hright, hdepth'⟩
  obtain ⟨rfl, hkind⟩ := additive?_eq_some.mp hsign
  have hform := Derives.additive sign hkind hleft hright
  exact ⟨hform, Nat.max_lt.mpr ⟨hdepth, hdepth'⟩⟩

theorem rightParen_eq_ok {value : Unit} :
    rightParen ⟨rest, room⟩ = .ok (value, after) ↔
      rest = .rightParen :: after.rest ∧ room = after.room := by
  unfold rightParen
  rw [peek_bind]
  cases rest with
  | nil => exact ⟨nofun, nofun⟩
  | cons first rest =>
    cases first with
    | rightParen =>
      constructor
      · intro h
        cases h
        exact ⟨rfl, rfl⟩
      · rintro ⟨h, rfl⟩
        cases h
        rfl
    | _ => exact ⟨nofun, nofun⟩

theorem factor_minus (levels : Nat) :
    factor (levels + 1) ⟨.operator .sub :: rest, room⟩ =
      (do
        addNode
        advance
        return .negate (← factor levels) : Parser Expression) ⟨.operator .sub :: rest, room⟩ := rfl

theorem factor_paren (levels : Nat) :
    factor (levels + 1) ⟨.leftParen :: rest, room⟩ =
      (do
        addNode
        advance
        let inner ← sum (factor levels)
        rightParen
        return .group inner : Parser Expression) ⟨.leftParen :: rest, room⟩ := rfl

/-- A number that no die letter follows is a literal. -/
theorem factor_number {levels number : Nat} (h : rest.head? ≠ some (.keyword .die)) :
    factor (levels + 1) ⟨.number number :: rest, room⟩ =
      (match literal? number with
        | none => reject .smallerLiteral
        | some value => do
          addNode
          advance
          return .literal value : Parser Expression) ⟨.number number :: rest, room⟩ := by
  cases rest with
  | nil => rfl
  | cons second rest =>
    cases second with
    | keyword keyword =>
      cases keyword with
      | die => exact absurd rfl h
      | _ => rfl
    | _ => rfl

theorem literal_sound {number : Nat} {expression : Expression}
    (h : (match literal? number with
        | none => reject .smallerLiteral
        | some value => do
          addNode
          advance
          return .literal value : Parser Expression) ⟨.number number :: rest, room⟩ =
      .ok (expression, after)) :
    ∃ value : Int64, value.toInt = number ∧ expression = .literal value ∧ rest = after.rest ∧
      room = after.room + 1 := by
  cases hvalue : literal? number with
  | none => simp [hvalue, reject] at h
  | some value =>
    simp only [hvalue] at h
    obtain ⟨room, rfl, hnode⟩ := addNode_bind_eq_ok.mp h
    rw [advance_bind] at hnode
    obtain ⟨rfl, rfl⟩ := pure_eq_ok.mp hnode
    exact ⟨value, literal?_eq_some_iff.mp hvalue, rfl, rfl, rfl⟩

theorem count_sound {number : Nat} {expression : Expression}
    (h : (if number = 0 then reject .positiveCount
        else do dice (← takeNumber word? .smallerCount number) : Parser Expression)
      ⟨.number number :: .keyword .die :: rest, room⟩ = .ok (expression, after)) :
    ∃ term text, rest = text ++ after.rest ∧
      IsTerm (.number number :: .keyword .die :: text) term ∧ expression = .dice term ∧
      room = after.room + 1 := by
  by_cases hzero : number = 0
  · simp [hzero, reject] at h
  · rw [if_neg hzero] at h
    obtain ⟨count, between, hcount, hdice⟩ := bind_eq_ok.mp h
    obtain ⟨hfit, rfl⟩ := takeNumber_eq_ok.mp hcount
    obtain ⟨sides, modifiers, second, third, rfl, hsides, hmodifiers, rfl, hroom⟩ :=
      dice_sound hdice
    have hcount := IsCount.number (Nat.pos_of_ne_zero hzero) (word?_eq_some_iff.mp hfit)
    exact ⟨_, second ++ third, rfl, .mk hcount hsides hmodifiers, rfl, hroom⟩

/-- A factor that nests within the levels that are left, by induction on these. -/
theorem factor_sound (levels : Nat) :
    Sound (Nested levels .factor) Expression.size (factor levels) := by
  induction levels with
  | zero => exact fun _ _ _ _ h => nomatch h
  | succ levels ih =>
    intro rest room expression after h
    cases rest with
    | nil => cases h
    | cons first rest =>
      cases first with
      | operator sign =>
        cases sign with
        | sub =>
          rw [factor_minus] at h
          obtain ⟨room, rfl, hnode⟩ := addNode_bind_eq_ok.mp h
          rw [advance_bind] at hnode
          obtain ⟨inner, between, hinner, hpure⟩ := bind_eq_ok.mp hnode
          obtain ⟨rfl, rfl⟩ := pure_eq_ok.mp hpure
          obtain ⟨text, rfl, ⟨hform, hdepth⟩, rfl⟩ := ih hinner
          have hdepth' : (Expression.negate inner).depth < levels + 1 := Nat.succ_lt_succ hdepth
          exact ⟨.operator .sub :: text, rfl, ⟨.negate hform, hdepth'⟩, rfl⟩
        | _ => cases h
      | leftParen =>
        rw [factor_paren] at h
        obtain ⟨room, rfl, hnode⟩ := addNode_bind_eq_ok.mp h
        rw [advance_bind] at hnode
        obtain ⟨inner, between, hinner, hclose⟩ := bind_eq_ok.mp hnode
        obtain ⟨_, last, hparen, hpure⟩ := bind_eq_ok.mp hclose
        obtain ⟨rfl, rfl⟩ := pure_eq_ok.mp hpure
        obtain ⟨text, rfl, ⟨hform, hdepth⟩, rfl⟩ := sum_sound ih hinner
        obtain ⟨hrest, hroom⟩ := rightParen_eq_ok.mp hparen
        have hdepth' : (Expression.group inner).depth < levels + 1 := Nat.succ_lt_succ hdepth
        refine ⟨.leftParen :: text ++ [.rightParen], ?_, ⟨.group hform, hdepth'⟩, ?_⟩
        · simp [hrest]
        · rw [hroom]
          rfl
      | keyword keyword =>
        cases keyword with
        | die =>
          obtain ⟨sides, modifiers, second, third, rfl, hsides, hmodifiers, rfl, hroom⟩ :=
            dice_sound h
          have hterm := IsTerm.mk .one hsides hmodifiers
          exact ⟨_, rfl, ⟨.dice hterm, Nat.succ_pos _⟩, hroom⟩
        | _ => cases h
      | number number =>
        by_cases hdie : rest.head? = some (.keyword .die)
        · obtain ⟨rest, rfl⟩ := List.head?_eq_some_iff.mp hdie
          obtain ⟨term, text, rfl, hterm, rfl, hroom⟩ := count_sound h
          exact ⟨_, rfl, ⟨.dice hterm, Nat.succ_pos _⟩, hroom⟩
        · rw [factor_number hdie] at h
          obtain ⟨value, hvalue, rfl, rfl, hroom⟩ := literal_sound h
          exact ⟨[.number number], rfl, ⟨.literal hvalue, Nat.succ_pos _⟩, hroom⟩
      | _ => cases h

/-- A whole line is a sum that leaves no lexemes. -/
theorem line_eq_ok {expression : Expression}
    (h : line ⟨rest, room⟩ = .ok (expression, after)) :
    sum (factor maxNesting) ⟨rest, room⟩ = .ok (expression, after) ∧ after.rest = [] := by
  obtain ⟨found, between, hsum, hend⟩ := bind_eq_ok.mp h
  rw [peek_bind] at hend
  cases hrest : between.rest with
  | nil =>
    rw [hrest] at hend
    obtain ⟨rfl, rfl⟩ := pure_eq_ok.mp hend
    exact ⟨hsum, hrest⟩
  | cons first rest =>
    simp only [hrest, List.head?_cons] at hend
    cases first with
    | keyword keyword => cases keyword <;> cases hend
    | _ => cases hend

/-- What a whole line gives is derived from all of its lexemes, within both limits. -/
theorem line_sound {expression : Expression}
    (h : line ⟨rest, room⟩ = .ok (expression, after)) :
    Derives .sum rest expression ∧ expression.size ≤ room ∧ expression.depth < maxNesting := by
  obtain ⟨hsum, hend⟩ := line_eq_ok h
  obtain ⟨text, rfl, ⟨hform, hdepth⟩, rfl⟩ := sum_sound (factor_sound maxNesting) hsum
  rw [hend, List.append_nil]
  exact ⟨hform, Nat.le_add_left .., hdepth⟩

end DiceNotation.Parser
