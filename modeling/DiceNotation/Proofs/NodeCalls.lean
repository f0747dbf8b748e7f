import DiceNotation.Proofs.ParserSound

/-!
# The calls for nodes

The parser calls for a node before it knows whether that node gets built. A run that goes through is
taken apart into its steps, so that the calls on it can be counted.
-/
namespace DiceNotation.Parser

/-- A parser that goes through by so many calls for a node, among steps that look at the lexemes and
take them. -/
inductive Calls : {α : Type} → Parser α → Pending → Nat → α → Pending → Prop
  | pure {α : Type} (a : α) (pending : Pending) : Calls (pure a) pending 0 a pending
  | get (pending : Pending) : Calls get pending 0 pending pending
  | peek (pending : Pending) : Calls peek pending 0 pending.rest.head? pending
  | advance (pending : Pending) :
      Calls advance pending 0 () { pending with rest := pending.rest.tail }
  | addNode (rest : List Lexeme) (room : Nat) :
      Calls addNode ⟨rest, room + 1⟩ 1 () ⟨rest, room⟩
  | bind {α β : Type} {parser : Parser α} {next : α → Parser β} {pending between after : Pending}
      {calls more : Nat} {a : α} {b : β} (first : Calls parser pending calls a between)
      (rest : Calls (next a) between more b after) :
      Calls (parser >>= next) pending (calls + more) b after

theorem Calls.apply_eq {α : Type} {parser : Parser α} {pending after : Pending} {calls : Nat}
    {a : α} (h : Calls parser pending calls a after) : parser pending = .ok (a, after) := by
  induction h with
  | pure | get | peek | advance | addNode => rfl
  | bind _ _ ih ih' => exact bind_eq_ok.mpr ⟨_, _, ih, ih'⟩

/-- Each call takes room for one node, and nothing else does. -/
theorem Calls.room_eq {α : Type} {parser : Parser α} {pending after : Pending} {calls : Nat} {a : α}
    (h : Calls parser pending calls a after) : pending.room = after.room + calls := by
  induction h with
  | pure | get | peek | advance | addNode => rfl
  | bind _ _ ih ih' => omega

/-- The parser is made up of these steps, as far as it goes through. -/
def Traced {α : Type} (parser : Parser α) : Prop :=
  ∀ ⦃pending a after⦄, parser pending = .ok (a, after) →
    ∃ calls, Calls parser pending calls a after

section Rules

variable {α β : Type}

theorem traced_pure (a : α) : Traced (pure a : Parser α) := by
  intro pending value after h
  obtain ⟨rfl, rfl⟩ := pure_eq_ok.mp h
  exact ⟨0, .pure value after⟩

theorem traced_reject (expected : Expected) : Traced (reject expected : Parser α) :=
  fun _ _ _ h => nomatch h

theorem traced_get : Traced (get : Parser Pending) := by
  intro pending value after h
  cases h
  exact ⟨0, .get pending⟩

theorem traced_peek : Traced peek := by
  intro pending value after h
  cases h
  exact ⟨0, .peek pending⟩

theorem traced_advance : Traced advance := by
  intro pending value after h
  cases h
  exact ⟨0, .advance pending⟩

theorem traced_addNode : Traced addNode := by
  rintro ⟨rest, room⟩ value after h
  cases room with
  | zero => cases h
  | succ room =>
    cases h
    exact ⟨1, .addNode rest room⟩

theorem Traced.bind {parser : Parser α} {next : α → Parser β} (h : Traced parser)
    (h' : ∀ a, Traced (next a)) : Traced (parser >>= next) := by
  intro pending b after hrun
  obtain ⟨a, between, hfirst, hrest⟩ := bind_eq_ok.mp hrun
  obtain ⟨calls, first⟩ := h hfirst
  obtain ⟨more, rest⟩ := h' a hrest
  exact ⟨calls + more, first.bind rest⟩

end Rules

theorem traced_takeNumber {α : Type} (fit? : Nat → Option α) (expected : Expected) (number : Nat) :
    Traced (takeNumber fit? expected number) := by
  unfold takeNumber
  split
  · exact traced_advance.bind fun _ => traced_pure _
  · exact traced_reject expected

theorem traced_amount : Traced amount := by
  refine traced_peek.bind fun lexeme => ?_
  split
  · exact traced_takeNumber ..
  · exact traced_reject _

theorem traced_faceValue (comparison : Comparison) : Traced (faceValue comparison) := by
  refine traced_peek.bind fun lexeme => ?_
  split
  · exact (traced_takeNumber ..).bind fun _ => traced_pure _
  · exact traced_reject _

theorem traced_condition? : Traced condition? := by
  refine traced_peek.bind fun lexeme => ?_
  split
  · exact traced_advance.bind fun _ => (traced_faceValue _).bind fun _ => traced_pure _
  · exact (traced_faceValue _).bind fun _ => traced_pure _
  · exact traced_pure none

theorem traced_rankOr (default : Rank) : Traced (rankOr default) := by
  refine traced_peek.bind fun lexeme => ?_
  split
  · exact traced_advance.bind fun _ => traced_pure _
  · exact traced_advance.bind fun _ => traced_pure _
  · exact traced_pure default

theorem traced_modifierBody? {keyword : Keyword} {body : Parser Modifier}
    (h : modifierBody? keyword = some body) : Traced body := by
  have hamount (build : UInt32 → Modifier) : Traced (do return build (← amount)) :=
    traced_amount.bind fun _ => traced_pure _
  have hcondition (build : Option Condition → Modifier) : Traced (do return build (← condition?)) :=
    traced_condition?.bind fun _ => traced_pure _
  cases keyword <;> cases h
  case keep | drop => exact (traced_rankOr _).bind fun rank => hamount _
  case keepHighest | keepLowest | dropHighest | dropLowest => exact hamount _
  case reroll | rerollOnce | explode => exact hcondition _
  case advantage | disadvantage => exact traced_pure _

theorem traced_modifier? : Traced modifier? := by
  refine traced_peek.bind fun lexeme => ?_
  split
  · exact traced_pure none
  · next keyword _ =>
    cases hbody : modifierBody? keyword with
    | some body =>
      exact traced_advance.bind fun _ => (traced_modifierBody? hbody).bind fun _ => traced_pure _
    | none => exact traced_reject _
  · exact traced_pure none

theorem traced_modifiersUpTo (most : Nat) : Traced (modifiersUpTo most) := by
  induction most with
  | zero => exact traced_pure []
  | succ most ih =>
    refine traced_modifier?.bind fun modifier => ?_
    cases modifier with
    | none => exact traced_pure []
    | some modifier => exact ih.bind fun _ => traced_pure _

theorem traced_modifiers : Traced modifiers :=
  traced_get.bind fun _ => traced_modifiersUpTo _

theorem traced_sides : Traced sides := by
  refine traced_peek.bind fun lexeme => ?_
  split
  · exact traced_takeNumber ..
  · exact traced_advance.bind fun _ => traced_pure _
  · exact traced_reject _

theorem traced_dice (count : UInt32) : Traced (dice count) := by
  refine traced_addNode.bind fun _ => traced_advance.bind fun _ => ?_
  exact traced_sides.bind fun _ => traced_modifiers.bind fun _ => traced_pure _

theorem traced_rightParen : Traced rightParen := by
  refine traced_peek.bind fun lexeme => ?_
  split
  · exact traced_advance
  · exact traced_reject _

theorem traced_chainUpTo {operator? : Lexeme → Option Operator} {operand : Parser Expression}
    (h : Traced operand) (most : Nat) (left : Expression) :
    Traced (chainUpTo operator? operand most left) := by
  induction most generalizing left with
  | zero =>
    unfold chainUpTo
    refine traced_peek.bind fun lexeme => ?_
    split
    · exact traced_pure left
    · exact traced_advance.bind fun _ => traced_addNode.bind fun _ => traced_reject _
  | succ most ih =>
    unfold chainUpTo
    refine traced_peek.bind fun lexeme => ?_
    split
    · exact traced_pure left
    · refine traced_advance.bind fun _ => traced_addNode.bind fun _ => ?_
      exact h.bind fun right => ih _

theorem traced_chain {operator? : Lexeme → Option Operator} {operand : Parser Expression}
    (h : Traced operand) : Traced (chain operator? operand) :=
  h.bind fun first => traced_get.bind fun pending => traced_chainUpTo h pending.room first

theorem traced_sum {factor : Parser Expression} (h : Traced factor) : Traced (sum factor) :=
  traced_chain (traced_chain h)

theorem traced_factor (levels : Nat) : Traced (factor levels) := by
  induction levels with
  | zero => exact traced_reject _
  | succ levels ih =>
    refine traced_get.bind fun pending => ?_
    split
    · refine traced_addNode.bind fun _ => traced_advance.bind fun _ => ?_
      exact ih.bind fun _ => traced_pure _
    · refine traced_addNode.bind fun _ => traced_advance.bind fun _ => ?_
      exact (traced_sum ih).bind fun _ => traced_rightParen.bind fun _ => traced_pure _
    · exact traced_dice 1
    · split
      · exact traced_reject _
      · exact (traced_takeNumber ..).bind traced_dice
    · split
      · exact traced_reject _
      · exact traced_addNode.bind fun _ => traced_advance.bind fun _ => traced_pure _
    · exact traced_reject _
    · exact traced_reject _

theorem traced_line : Traced line := by
  refine (traced_sum (traced_factor maxNesting)).bind fun expression => ?_
  refine traced_peek.bind fun lexeme => ?_
  split
  · exact traced_pure expression
  · exact traced_reject _
  · exact traced_reject _
  · exact traced_reject _

/-- A line that goes through calls for as many nodes as its tree has. -/
theorem calls_line_iff {tokens : List Token} {expression : Expression}
    (h : Expression.ofTokens tokens = .ok expression) :
    ∃ after, line ⟨body tokens, maxNodes⟩ = .ok (expression, after) ∧ ∀ calls last,
      Calls line ⟨body tokens, maxNodes⟩ calls expression last ↔
        calls = expression.nodeCount ∧ last = after := by
  unfold Expression.ofTokens at h
  cases hline : line ⟨body tokens, maxNodes⟩ with
  | error rejection =>
    rw [hline] at h
    cases h
  | ok result =>
    obtain ⟨found, after⟩ := result
    rw [hline] at h
    cases h
    obtain ⟨hsum, -⟩ := line_eq_ok hline
    obtain ⟨-, -, -, hroom⟩ := sum_sound (factor_sound maxNesting) hsum
    rw [← Expression.nodeCount_eq_size] at hroom
    have hcount {calls : Nat} (h : Calls line ⟨body tokens, maxNodes⟩ calls expression after) :
        calls = expression.nodeCount := by
      have hroom' := h.room_eq
      dsimp only at hroom'
      omega
    refine ⟨after, rfl, fun calls last => ⟨fun hcalls => ?_, ?_⟩⟩
    · have hlast := hcalls.apply_eq
      rw [hline] at hlast
      cases hlast
      exact ⟨hcount hcalls, rfl⟩
    · rintro ⟨rfl, rfl⟩
      obtain ⟨calls, hcalls⟩ := traced_line hline
      exact hcount hcalls ▸ hcalls

end DiceNotation.Parser
