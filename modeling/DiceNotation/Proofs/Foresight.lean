import DiceNotation.Proofs.ParserComplete

/-!
# What a parser sees

Whatever a parser does with a text is settled by the lexemes that it takes and by the next two, up
to an end of input; of a word ahead it sees no more than that it is one. It takes lexemes of the
notation alone, so it never passes a word or an end of input.
-/
namespace DiceNotation

/-- Whether a lexeme is part of the notation: an unknown word and the end of input are not. -/
def Lexeme.isKnown : Lexeme → Bool
  | word _ | endOfInput => false
  | _ => true

/-- A lexeme as a parser sees it, to which all words look alike. -/
def Lexeme.seen : Lexeme → Lexeme
  | word _ => word ""
  | known => known

theorem Lexeme.ne_endOfInput_of_isKnown {lexeme : Lexeme} (h : lexeme.isKnown = true) :
    lexeme ≠ .endOfInput := by
  rintro rfl
  cases h

namespace Parser

variable {α β : Type}

/-- What a parser sees of the lexemes ahead: at most two of them, up to an end of input. -/
def ahead (rest : List Lexeme) : List Lexeme :=
  ((rest.takeWhile (· != .endOfInput)).take 2).map Lexeme.seen

/-- What a parser sees of the next lexeme. -/
def glance : Option Lexeme → Option Lexeme
  | none | some .endOfInput => none
  | some lexeme => some lexeme.seen

@[simp] theorem ahead_nil : ahead [] = [] := rfl

@[simp] theorem ahead_endOfInput (rest : List Lexeme) : ahead (.endOfInput :: rest) = [] := rfl

theorem ahead_cons {first : Lexeme} (rest : List Lexeme) (h : first ≠ .endOfInput) :
    ahead (first :: rest) = first.seen :: (ahead rest).take 1 := by
  simp [ahead, h, List.take_take]

theorem head?_ahead (rest : List Lexeme) : (ahead rest).head? = glance rest.head? := by
  cases rest with
  | nil => rfl
  | cons first rest => cases first <;> simp [ahead_cons, glance]

theorem glance_of_ahead {rest other : List Lexeme} (h : ahead other = ahead rest) :
    glance other.head? = glance rest.head? := by
  rw [← head?_ahead, ← head?_ahead, h]

theorem glance_eq_some_iff {lexeme? : Option Lexeme} {lexeme : Lexeme}
    (h : lexeme.isKnown = true) : glance lexeme? = some lexeme ↔ lexeme? = some lexeme := by
  cases lexeme? with
  | none => simp [glance]
  | some other => cases other <;> cases lexeme <;> simp_all [glance, Lexeme.seen, Lexeme.isKnown]

theorem eq_some_of_glance {lexeme? : Option Lexeme} {lexeme : Lexeme}
    (h : lexeme.isKnown = true) (heq : glance lexeme? = glance (some lexeme)) :
    lexeme? = some lexeme :=
  (glance_eq_some_iff h).mp (heq.trans ((glance_eq_some_iff h).mpr rfl))

theorem ahead_append {rest other : List Lexeme} (taken : List Lexeme)
    (h : ahead other = ahead rest) : ahead (taken ++ other) = ahead (taken ++ rest) := by
  induction taken with
  | nil => exact h
  | cons first taken ih =>
    by_cases hend : first = .endOfInput
    · simp [hend]
    · simp [ahead_cons _ hend, ih]

/-- How a parser ends that leaves these lexemes: with what it expects of them, or with a value and
the room left for nodes. -/
def leaving (rest : List Lexeme) : Except Expected (α × Nat) → Except Rejection (α × Pending)
  | .error expected => .error ⟨expected, rest⟩
  | .ok (value, room) => .ok (value, ⟨rest, room⟩)

/-- What a parser does with a text is settled by what it takes of it and what it then sees ahead. -/
def SettledOn (parser : Parser α) (text : List Lexeme) (room : Nat) : Prop :=
  ∃ taken rest ending, text = taken ++ rest ∧ (∀ lexeme ∈ taken, lexeme.isKnown = true) ∧
    ∀ other, ahead other = ahead rest → parser ⟨taken ++ other, room⟩ = leaving other ending

def Settled (parser : Parser α) : Prop := ∀ text room, SettledOn parser text room

section Rules

variable {text rest : List Lexeme} {room : Nat} {first : Lexeme}

theorem settledOn_of_leaving {parser : Parser α} (ending : Except Expected (α × Nat))
    (h : ∀ other, ahead other = ahead text → parser ⟨other, room⟩ = leaving other ending) :
    SettledOn parser text room :=
  ⟨[], text, ending, rfl, by simp, h⟩

theorem settledOn_pure (value : α) : SettledOn (pure value : Parser α) text room :=
  settledOn_of_leaving (.ok (value, room)) fun _ _ => rfl

theorem settledOn_reject (expected : Expected) : SettledOn (reject expected : Parser α) text room :=
  settledOn_of_leaving (.error expected) fun _ _ => rfl

/-- Where two parsers do the same with all that looks the same ahead, both are settled or none. -/
theorem SettledOn.congr {parser parser' : Parser α} (h : SettledOn parser' text room)
    (heq : ∀ other, ahead other = ahead text → parser ⟨other, room⟩ = parser' ⟨other, room⟩) :
    SettledOn parser text room := by
  obtain ⟨taken, rest, ending, rfl, hknown, hsettled⟩ := h
  refine ⟨taken, rest, ending, rfl, hknown, fun other hother => ?_⟩
  rw [heq _ (ahead_append taken hother), hsettled other hother]

theorem SettledOn.peek_bind {next : Option Lexeme → Parser β}
    (h : SettledOn (next text.head?) text room)
    (hnext : ∀ lexeme?, next (glance lexeme?) = next lexeme?) :
    SettledOn (peek >>= next) text room := by
  refine h.congr fun other hother => ?_
  rw [Parser.peek_bind, ← hnext, glance_of_ahead hother, hnext]

theorem SettledOn.addNode_bind {next : Unit → Parser β}
    (h : ∀ room, SettledOn (next ()) text room) : SettledOn (addNode >>= next) text room := by
  cases room with
  | zero => exact settledOn_of_leaving (.error .fewerNodes) fun _ _ => rfl
  | succ room => exact (h room).congr fun _ _ => rfl

theorem SettledOn.advance_bind {next : Unit → Parser β} (h : SettledOn (next ()) rest room)
    (hfirst : first.isKnown = true) : SettledOn (advance >>= next) (first :: rest) room := by
  obtain ⟨taken, rest, ending, rfl, hknown, hsettled⟩ := h
  exact ⟨first :: taken, rest, ending, rfl, List.forall_mem_cons.mpr ⟨hfirst, hknown⟩, hsettled⟩

theorem SettledOn.bind {parser : Parser α} {next : α → Parser β} (h : SettledOn parser text room)
    (hnext : ∀ value rest room', parser ⟨text, room⟩ = .ok (value, ⟨rest, room'⟩) →
      SettledOn (next value) rest room') :
    SettledOn (parser >>= next) text room := by
  obtain ⟨taken, rest, ending, rfl, hknown, hsettled⟩ := h
  cases ending with
  | error expected =>
    refine ⟨taken, rest, .error expected, rfl, hknown, fun other hother => ?_⟩
    change (parser ⟨taken ++ other, room⟩ >>= fun result => next result.1 result.2) = _
    rw [hsettled other hother]
    rfl
  | ok result =>
    obtain ⟨value, room'⟩ := result
    obtain ⟨more, rest, ending, rfl, hknown', hsettled'⟩ :=
      hnext value rest room' (hsettled rest rfl)
    refine ⟨taken ++ more, rest, ending, (List.append_assoc ..).symm,
      List.forall_mem_append.mpr ⟨hknown, hknown'⟩, fun other hother => ?_⟩
    have hfirst := hsettled (more ++ other) (ahead_append more hother)
    rw [List.append_assoc, bind_of_eq_ok hfirst]
    exact hsettled' other hother

end Rules

section Parts

variable {text rest : List Lexeme} {room : Nat}

theorem settledOn_takeNumber {fit? : Nat → Option α} {expected : Expected} {number : Nat} :
    SettledOn (takeNumber fit? expected number) (.number number :: rest) room := by
  unfold takeNumber
  cases fit? number with
  | none => exact settledOn_reject expected
  | some value => exact (settledOn_pure value).advance_bind rfl

theorem settled_amount : Settled amount := by
  intro text room
  refine SettledOn.peek_bind ?_ ?_
  · cases text with
    | nil => exact settledOn_reject .amount
    | cons first rest =>
      cases first with
      | number number => exact settledOn_takeNumber
      | _ => exact settledOn_reject .amount
  · rintro (_ | lexeme)
    · rfl
    · cases lexeme <;> rfl

theorem settled_faceValue (comparison : Comparison) : Settled (faceValue comparison) := by
  intro text room
  refine SettledOn.peek_bind ?_ ?_
  · cases text with
    | nil => exact settledOn_reject .faceValue
    | cons first rest =>
      cases first with
      | number number => exact settledOn_takeNumber.bind fun _ _ _ _ => settledOn_pure _
      | _ => exact settledOn_reject .faceValue
  · rintro (_ | lexeme)
    · rfl
    · cases lexeme <;> rfl

theorem settled_condition? : Settled condition? := by
  intro text room
  refine SettledOn.peek_bind ?_ ?_
  · cases text with
    | nil => exact settledOn_pure none
    | cons first rest =>
      cases first with
      | comparison comparison =>
        refine SettledOn.advance_bind ?_ rfl
        exact (settled_faceValue comparison rest room).bind fun _ _ _ _ => settledOn_pure _
      | number number =>
        exact (settled_faceValue .equal _ room).bind fun _ _ _ _ => settledOn_pure _
      | _ => exact settledOn_pure none
  · rintro (_ | lexeme)
    · rfl
    · cases lexeme <;> rfl

theorem settled_rankOr (default : Rank) : Settled (rankOr default) := by
  intro text room
  refine SettledOn.peek_bind ?_ ?_
  · cases text with
    | nil => exact settledOn_pure default
    | cons first rest =>
      cases first with
      | keyword keyword =>
        cases keyword with
        | highest => exact (settledOn_pure Rank.highest).advance_bind rfl
        | lowest => exact (settledOn_pure Rank.lowest).advance_bind rfl
        | _ => exact settledOn_pure default
      | _ => exact settledOn_pure default
  · rintro (_ | lexeme)
    · rfl
    · cases lexeme <;> rfl

theorem settled_modifierBody? {keyword : Keyword} {body : Parser Modifier}
    (h : modifierBody? keyword = some body) : Settled body := by
  have ranked (default : Rank) (build : Rank → UInt32 → Modifier) :
      Settled (do return build (← rankOr default) (← amount)) := fun text room =>
    (settled_rankOr default text room).bind fun _ rest room' _ =>
      (settled_amount rest room').bind fun _ _ _ _ => settledOn_pure _
  have plain (build : UInt32 → Modifier) : Settled (do return build (← amount)) :=
    fun text room => (settled_amount text room).bind fun _ _ _ _ => settledOn_pure _
  have conditioned (build : Option Condition → Modifier) :
      Settled (do return build (← condition?)) :=
    fun text room => (settled_condition? text room).bind fun _ _ _ _ => settledOn_pure _
  cases keyword <;> cases h
  case keep => exact ranked .highest _
  case drop => exact ranked .lowest _
  case keepHighest | keepLowest | dropHighest | dropLowest => exact plain _
  case reroll | rerollOnce | explode => exact conditioned _
  case advantage | disadvantage => exact fun _ _ => settledOn_pure _

theorem settled_modifier? : Settled modifier? := by
  intro text room
  refine SettledOn.peek_bind ?_ ?_
  · cases text with
    | nil => exact settledOn_pure none
    | cons first rest =>
      cases first with
      | keyword keyword =>
        by_cases hdie : keyword = .die
        · subst hdie
          exact settledOn_pure none
        · cases hbody : modifierBody? keyword with
          | none =>
            refine (settledOn_reject .keepOrDropBefore).congr fun other _ => ?_
            simp [hbody]
          | some body =>
            have hmodifier : SettledOn (advance >>= fun _ => body >>= fun modifier =>
                pure (some modifier) : Parser (Option Modifier)) (.keyword keyword :: rest) room :=
              ((settled_modifierBody? hbody rest room).bind fun _ _ _ _ =>
                settledOn_pure _).advance_bind rfl
            refine hmodifier.congr fun other _ => ?_
            simp [hbody]
      | _ => exact settledOn_pure none
  · rintro (_ | lexeme)
    · rfl
    · cases lexeme <;> rfl

theorem length_lt_of_modifier? {modifier : Modifier} {after : Pending}
    (h : modifier? ⟨text, room⟩ = .ok (some modifier, after)) :
    after.rest.length < text.length := by
  obtain ⟨taken, rfl, hform, _⟩ := modifier?_sound h
  cases hform with
  | present hform =>
    obtain ⟨keyword, others, rfl⟩ := keyword_of_isModifier hform
    simp only [List.length_append, List.length_cons]
    omega

theorem modifiersUpTo_nil (most : Nat) :
    modifiersUpTo most ⟨[], room⟩ = .ok ([], ⟨[], room⟩) := by
  cases most <;> rfl

/-- As each modifier takes a lexeme, it does not matter how many there may be at most, if these are
no fewer than the lexemes that are left. -/
theorem modifiersUpTo_eq {most most' : Nat} (h : text.length ≤ most) (h' : text.length ≤ most') :
    modifiersUpTo most ⟨text, room⟩ = modifiersUpTo most' ⟨text, room⟩ := by
  induction most generalizing text room most' with
  | zero =>
    obtain rfl := List.length_eq_zero_iff.mp (Nat.le_zero.mp h)
    rw [modifiersUpTo_nil, modifiersUpTo_nil]
  | succ most ih =>
    cases most' with
    | zero =>
      obtain rfl := List.length_eq_zero_iff.mp (Nat.le_zero.mp h')
      rw [modifiersUpTo_nil, modifiersUpTo_nil]
    | succ most' =>
      change (modifier? ⟨text, room⟩ >>= fun result => _) =
        (modifier? ⟨text, room⟩ >>= fun result => _)
      cases hmodifier : modifier? ⟨text, room⟩ with
      | error rejection => rfl
      | ok result =>
        obtain ⟨_ | modifier, after⟩ := result
        · rfl
        · have hlt := length_lt_of_modifier? hmodifier
          have hrest : modifiersUpTo most after = modifiersUpTo most' after :=
            ih (by omega) (by omega)
          change (modifiersUpTo most after >>= fun result => _) =
            (modifiersUpTo most' after >>= fun result => _)
          rw [hrest]

theorem settled_modifiersUpTo (most : Nat) : Settled (modifiersUpTo most) := by
  induction most with
  | zero => exact fun _ _ => settledOn_pure []
  | succ most ih =>
    intro text room
    refine (settled_modifier? text room).bind fun modifier? rest room' _ => ?_
    cases modifier? with
    | none => exact settledOn_pure []
    | some modifier => exact (ih rest room').bind fun _ _ _ _ => settledOn_pure _

theorem leaving_inj {rest rest' : List Lexeme} {ending ending' : Except Expected (α × Nat)}
    (h : leaving rest ending = leaving rest' ending') : rest = rest' ∧ ending = ending' := by
  rcases ending with expected | ⟨value, room⟩ <;>
    rcases ending' with expected' | ⟨value', room'⟩ <;> cases h <;> exact ⟨rfl, rfl⟩

theorem settled_modifiers : Settled Parser.modifiers := by
  intro text room
  obtain ⟨taken, rest, ending, rfl, hknown, hsettled⟩ :=
    settled_modifiersUpTo text.length text room
  refine ⟨taken, rest, ending, rfl, hknown, fun other hother => ?_⟩
  -- as many modifiers as either text has room for, so that both are read alike
  let most := max (taken ++ rest).length (taken ++ other).length
  obtain ⟨taken', rest', ending', htext, _, hsettled'⟩ :=
    settled_modifiersUpTo most (taken ++ rest) room
  have hmost : leaving rest ending = leaving rest' ending' := by
    rw [← hsettled rest rfl, ← hsettled' rest' rfl, ← htext]
    exact modifiersUpTo_eq (Nat.le_refl _) (Nat.le_max_left ..)
  obtain ⟨rfl, rfl⟩ := leaving_inj hmost
  obtain rfl := List.append_cancel_right htext
  rw [← hsettled' other hother]
  exact modifiersUpTo_eq (Nat.le_refl _) (Nat.le_max_right ..)

theorem settled_sides : Settled Parser.sides := by
  intro text room
  refine SettledOn.peek_bind ?_ ?_
  · cases text with
    | nil => exact settledOn_reject .sides
    | cons first rest =>
      cases first with
      | number number => exact settledOn_takeNumber
      | percent => exact (settledOn_pure (100 : UInt32)).advance_bind rfl
      | _ => exact settledOn_reject .sides
  · rintro (_ | lexeme)
    · rfl
    · cases lexeme <;> rfl

theorem settledOn_dice (count : UInt32) : SettledOn (dice count) (.keyword .die :: rest) room := by
  refine SettledOn.addNode_bind fun room => SettledOn.advance_bind ?_ rfl
  refine (settled_sides rest room).bind fun sides rest room _ => ?_
  exact (settled_modifiers rest room).bind fun _ _ _ _ => settledOn_pure _

theorem settled_rightParen : Settled rightParen := by
  intro text room
  refine SettledOn.peek_bind ?_ ?_
  · cases text with
    | nil => exact settledOn_reject .rightParen
    | cons first rest =>
      cases first with
      | rightParen => exact (settledOn_pure ()).advance_bind rfl
      | _ => exact settledOn_reject .rightParen
  · rintro (_ | lexeme)
    · rfl
    · cases lexeme <;> rfl

end Parts

section Chain

variable {operator? : Lexeme → Option Operator} {operand : Parser Expression}

theorem bind_glance (h : ∀ lexeme sign, operator? lexeme = some sign → lexeme.isKnown = true)
    (lexeme? : Option Lexeme) :
    (glance lexeme?).bind operator? = lexeme?.bind operator? := by
  have hnone : ∀ lexeme, lexeme.isKnown = false → operator? lexeme = none := by
    intro lexeme hlexeme
    cases hsign : operator? lexeme with
    | none => rfl
    | some sign => simp [h lexeme sign hsign] at hlexeme
  cases lexeme? with
  | none => rfl
  | some lexeme =>
    cases lexeme with
    | word text => simp [glance, Lexeme.seen, hnone (.word _) rfl]
    | endOfInput => simp [glance, hnone .endOfInput rfl]
    | _ => rfl

/-- A parser that goes on after an operator, or else gives what it has. -/
theorem settled_operator (h : ∀ lexeme sign, operator? lexeme = some sign → lexeme.isKnown = true)
    {left : Expression} {next : Operator → Parser Expression}
    (hnext : ∀ sign, Settled (next sign)) :
    Settled (do
      match (← peek).bind operator? with
      | none => return left
      | some sign => do
        advance
        next sign) := by
  intro text room
  refine SettledOn.peek_bind ?_ fun lexeme? => by rw [bind_glance h]
  cases text with
  | nil => exact settledOn_pure left
  | cons first rest =>
    rw [List.head?_cons, Option.bind_some]
    cases hsign : operator? first with
    | none => exact settledOn_pure left
    | some sign => exact SettledOn.advance_bind (hnext sign rest room) (h first sign hsign)

theorem settled_chainUpTo (h : ∀ lexeme sign, operator? lexeme = some sign → lexeme.isKnown = true)
    (hoperand : Settled operand) (most : Nat) (left : Expression) :
    Settled (chainUpTo operator? operand most left) := by
  induction most generalizing left with
  | zero =>
    unfold chainUpTo
    refine settled_operator h fun sign text room => SettledOn.addNode_bind fun room => ?_
    exact settledOn_reject .fewerNodes
  | succ most ih =>
    unfold chainUpTo
    refine settled_operator h fun sign text room => SettledOn.addNode_bind fun room => ?_
    exact (hoperand text room).bind fun right rest room _ => ih _ rest room

theorem settled_chain (h : ∀ lexeme sign, operator? lexeme = some sign → lexeme.isKnown = true)
    (hoperand : Settled operand) : Settled (chain operator? operand) := by
  intro text room
  refine (hoperand text room).bind fun first rest room _ => ?_
  exact (settled_chainUpTo h hoperand room first rest room).congr fun _ _ => rfl

theorem settled_sum {factor : Parser Expression} (h : Settled factor) : Settled (sum factor) := by
  refine settled_chain ?_ (settled_chain ?_ h)
  · intro lexeme sign hsign
    obtain ⟨rfl, _⟩ := additive?_eq_some.mp hsign
    rfl
  · intro lexeme sign hsign
    obtain ⟨rfl, _⟩ := multiplicative?_eq_some.mp hsign
    rfl

end Chain

section Factor

variable {text rest : List Lexeme} {room levels : Nat} {first : Lexeme}

/-- Where two parsers do the same after a lexeme of the notation, they are settled alike. -/
theorem SettledOn.congr_cons {parser parser' : Parser α}
    (h : SettledOn parser' (first :: rest) room) (hfirst : first.isKnown = true)
    (heq : ∀ rest', glance rest'.head? = glance rest.head? →
      parser ⟨first :: rest', room⟩ = parser' ⟨first :: rest', room⟩) :
    SettledOn parser (first :: rest) room := by
  have hend := Lexeme.ne_endOfInput_of_isKnown hfirst
  refine h.congr fun other hother => ?_
  have hhead : other.head? = some first := eq_some_of_glance hfirst (glance_of_ahead hother)
  obtain ⟨rest', rfl⟩ := List.head?_eq_some_iff.mp hhead
  rw [ahead_cons _ hend, ahead_cons _ hend, List.cons.injEq] at hother
  refine heq rest' ?_
  have hnext := congrArg List.head? hother.2
  rwa [List.head?_take, List.head?_take, if_neg (by simp), if_neg (by simp), head?_ahead,
    head?_ahead] at hnext

theorem settledOn_factor_of_unknown (h : ∀ first ∈ text.head?, first.isKnown = false) :
    SettledOn (factor (levels + 1)) text room := by
  refine (settledOn_reject .factor).congr fun other hother => ?_
  cases other with
  | nil => rfl
  | cons first rest =>
    cases hfirst : first.isKnown with
    | true =>
      have hhead : text.head? = some first :=
        eq_some_of_glance hfirst (glance_of_ahead hother).symm
      simp [h first hhead] at hfirst
    | false => cases first <;> first | rfl | cases hfirst

/-- A number is a count or a literal: the lexeme behind it tells which. -/
theorem settledOn_factor_number (number : Nat) :
    SettledOn (factor (levels + 1)) (.number number :: rest) room := by
  by_cases hdie : rest.head? = some (.keyword .die)
  · obtain ⟨rest, rfl⟩ := List.head?_eq_some_iff.mp hdie
    have hcount : SettledOn (if number = 0 then reject .positiveCount
        else do dice (← takeNumber word? .smallerCount number) : Parser Expression)
        (.number number :: .keyword .die :: rest) room := by
      split
      · exact settledOn_reject .positiveCount
      · refine settledOn_takeNumber.bind fun count between room' htaken => ?_
        obtain ⟨_, hbetween⟩ := takeNumber_eq_ok.mp htaken
        cases hbetween
        exact settledOn_dice count
    refine hcount.congr_cons rfl fun rest' hrest' => ?_
    obtain ⟨rest', rfl⟩ := List.head?_eq_some_iff.mp (eq_some_of_glance rfl hrest')
    rfl
  · have hbehind : ∀ rest' : List Lexeme, glance rest'.head? = glance rest.head? →
        rest'.head? ≠ some (.keyword .die) := by
      intro rest' hrest' hdie'
      rw [hdie'] at hrest'
      exact hdie (eq_some_of_glance rfl hrest'.symm)
    cases hfit : literal? number with
    | none =>
      refine (settledOn_reject .smallerLiteral).congr_cons rfl fun rest' hrest' => ?_
      rw [factor_number (hbehind rest' hrest'), hfit]
    | some value =>
      have hliteral : SettledOn (do
          addNode
          advance
          return .literal value : Parser Expression) (.number number :: rest) room :=
        SettledOn.addNode_bind fun room => SettledOn.advance_bind (settledOn_pure _) rfl
      refine hliteral.congr_cons rfl fun rest' hrest' => ?_
      rw [factor_number (hbehind rest' hrest'), hfit]

theorem settled_factor (levels : Nat) : Settled (factor levels) := by
  induction levels with
  | zero => exact fun _ _ => settledOn_reject .lessNesting
  | succ levels ih =>
    intro text room
    cases text with
    | nil => exact settledOn_factor_of_unknown (by simp)
    | cons first rest =>
      cases first with
      | operator sign =>
        cases sign with
        | sub =>
          have hnegate : SettledOn (do
              addNode
              advance
              return .negate (← factor levels) : Parser Expression)
              (.operator .sub :: rest) room :=
            SettledOn.addNode_bind fun room => SettledOn.advance_bind
              ((ih rest room).bind fun _ _ _ _ => settledOn_pure _) rfl
          exact hnegate.congr_cons rfl fun rest' _ => factor_minus levels
        | _ => exact (settledOn_reject .factor).congr_cons rfl fun _ _ => rfl
      | leftParen =>
        have hgroup : SettledOn (do
            addNode
            advance
            let inner ← sum (factor levels)
            rightParen
            return .group inner : Parser Expression) (.leftParen :: rest) room := by
          refine SettledOn.addNode_bind fun room => SettledOn.advance_bind ?_ rfl
          refine (settled_sum ih rest room).bind fun inner rest room _ => ?_
          exact (settled_rightParen rest room).bind fun _ _ _ _ => settledOn_pure _
        exact hgroup.congr_cons rfl fun rest' _ => factor_paren levels
      | keyword keyword =>
        cases keyword with
        | die => exact (settledOn_dice 1).congr_cons rfl fun _ _ => rfl
        | _ => exact (settledOn_reject .diceBeforeModifier).congr_cons rfl fun _ _ => rfl
      | number number => exact settledOn_factor_number number
      | word | endOfInput => exact settledOn_factor_of_unknown (by simp [Lexeme.isKnown])
      | _ => exact (settledOn_reject .factor).congr_cons rfl fun _ _ => rfl

end Factor

end Parser

end DiceNotation
