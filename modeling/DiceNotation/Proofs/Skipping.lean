import DiceNotation.Proofs.RerollChains
import DiceNotation.Proofs.ExplosionChains

/-!
# Skipping conditions that no face can pass

A modifier with a condition that no face of its dice can pass is skipped. Going through the live
dice all the same comes to the same: none of them is rerolled, and none explodes.
-/
namespace DiceNotation

namespace Roller

variable {σ : Type} [FaceSource σ]

/-- How modifiers are applied to the live dice of a term. -/
abbrev Application (σ : Type) := Limits → Nat → DiceTerm → List Nat → Modifier → Roller σ (List Nat)

/-- Applies a modifier without asking first whether any face can pass its condition. -/
def applyUnasked : Application σ
  | _, _, term, live, .keep rank amount => applyKeep term rank amount live
  | _, _, term, live, .drop rank amount => applyDrop term rank amount live
  | limits, node, term, live, .reroll condition =>
    live.mapM (rerollDie limits node term (condition.getD (.isFace 1)) false limits.rerollDepth)
  | limits, node, term, live, .rerollOnce condition =>
    live.mapM (rerollDie limits node term (condition.getD (.isFace 1)) true 1)
  | limits, node, term, live, .explode condition =>
    explodeLive (explodeDie limits node term (condition.getD (.isFace term.sides))
      limits.rerollDepth) live

section Application

variable (apply : Application σ) (limits : Limits)

def rollTermBy (node : Nat) (term : DiceTerm) : Roller σ Int64 := do
  if term.count = 0 then
    throw (.noDice term)
  if limits.dice < term.count.toNat then
    throw (.termTooLarge term limits.dice)
  let start := (← get).trail.size
  throwDice limits node term.sides term.count.toNat
  let live ← term.modifiers.foldlM (apply limits node term) (List.range' start term.count.toNat)
  let value ← sumOf term live
  remark (.rolled node term value)
  return value

def rollNodesBy : Expression → Roller σ Int64
  | .literal value => do
    let node ← visit limits
    enter node value
  | .dice term => do
    let node ← visit limits
    enter node (← rollTermBy apply limits node term)
  | .binary operator left right => do
    let node ← visit limits
    let left ← rollNodesBy left
    let right ← rollNodesBy right
    enter node (← settle (operator.apply left right))
  | .group inner => do
    let node ← visit limits
    enter node (← rollNodesBy inner)
  | .negate inner => do
    let node ← visit limits
    let inner ← rollNodesBy inner
    enter node (← settle (negated inner))

def rollExpressionBy (expression : Expression) : Roller σ Evaluation := do
  if limits.nodes < expression.nodeCount then
    throw (.tooManyNodes expression.nodeCount limits.nodes)
  let total ← rollNodesBy apply limits expression
  let table ← get
  return ⟨total, table.trail, table.subTotals⟩

end Application

theorem rollNodesBy_applyModifier (limits : Limits) (expression : Expression) :
    (rollNodesBy applyModifier limits expression : Roller σ Int64) =
      rollNodes limits expression := by
  induction expression with
  | literal value => rfl
  | dice term => rfl
  | binary operator left right ihLeft ihRight => rw [rollNodesBy, ihLeft, ihRight, rollNodes]
  | group inner ih => rw [rollNodesBy, ih, rollNodes]
  | negate inner ih => rw [rollNodesBy, ih, rollNodes]

end Roller

namespace Expression

variable {σ : Type} [FaceSource σ]

/-- Rolls an expression at a fresh table, with the modifiers applied in a way of their own. -/
def rollAtBy (apply : Roller.Application σ) (limits : Limits) (expression : Expression)
    (source : σ) : EStateM.Result RollError (Table σ) Evaluation :=
  Roller.rollExpressionBy apply limits expression (.fresh source)

def rollBy (apply : Roller.Application σ) (limits : Limits) (expression : Expression) (source : σ) :
    Except RollError Evaluation × σ :=
  match expression.rollAtBy apply limits source with
  | .ok evaluation table => (.ok evaluation, table.source)
  | .error error table => (.error error, table.source)

/-- Applied as they are, the modifiers make the roll that is made. -/
theorem rollAtBy_applyModifier (limits : Limits) (expression : Expression) (source : σ) :
    expression.rollAtBy Roller.applyModifier limits source = expression.rollAt limits source := by
  rw [rollAtBy, Roller.rollExpressionBy, Roller.rollNodesBy_applyModifier]
  rfl

end Expression

namespace Roller

variable {σ α β : Type} [FaceSource σ] {limits : Limits}

/-- The second step comes to the same as the first but for the remarks, and leaves dice that show
their sides. -/
inductive Same (image : α → β) :
    EStateM.Result RollError (Table σ) α → EStateM.Result RollError (Table σ) β → Prop
  | ok (a : α) {after : Table σ} (remarks : Array Remark)
      (sided : Sided after.source after.trail) :
      Same image (.ok a after) (.ok (image a) { after with remarks := remarks })
  | error (error : RollError) {after : Table σ} (remarks : Array Remark) :
      Same image (.error error after) (.error error { after with remarks := remarks })

/-- Where dice show their sides, the second step does what the first does, whatever is remarked. -/
def SameSteps (image : α → β) (first : Roller σ α) (second : Roller σ β) : Prop :=
  ∀ (table : Table σ) (remarks : Array Remark), Sided table.source table.trail →
    Same image (first table) (second { table with remarks := remarks })

section Steps

variable {γ δ : Type} {image : α → β} {image' : γ → δ} {first : Roller σ α} {second : Roller σ β}
  {next : α → Roller σ γ} {next' : β → Roller σ δ}

theorem Same.bind {table table' : Table σ} (hfirst : Same image (first table) (second table'))
    (hrest : ∀ a after remarks, first table = .ok a after → Sided after.source after.trail →
      Same image' (next a after) (next' (image a) { after with remarks := remarks })) :
    Same image' ((first >>= next) table) ((second >>= next') table') := by
  simp only [Bind.bind, EStateM.bind]
  generalize hresult : first table = result, second table' = result' at hfirst hrest ⊢
  cases hfirst with
  | ok a remarks sided => exact hrest a _ remarks rfl sided
  | error error remarks => exact .error error remarks

theorem bind_sameSteps (hfirst : SameSteps image first second)
    (hrest : ∀ a, SameSteps image' (next a) (next' (image a))) :
    SameSteps image' (first >>= next) (second >>= next') :=
  fun table remarks hsided => (hfirst table remarks hsided).bind fun a after remarks _ hsided =>
    hrest a after remarks hsided

theorem checkTime_sameSteps : SameSteps (σ := σ) id (checkTime limits) (checkTime limits) := by
  intro table remarks hsided
  rw [checkTime_apply, checkTime_apply]
  cases limits.time with
  | none => exact .ok () remarks hsided
  | some budget =>
    dsimp only
    split
    · exact .error _ remarks
    · exact .ok () remarks hsided

theorem faceOf_sameSteps (die : Nat) : SameSteps (σ := σ) id (faceOf die) (faceOf die) := by
  intro table remarks hsided
  rw [faceOf_apply, faceOf_apply]
  cases hdie : table.trail[die]? with
  | none => exact .error _ remarks
  | some outcome => exact .ok outcome.value remarks hsided

theorem retire_sameSteps (die : Nat) : SameSteps (σ := σ) id (retire die) (retire die) := by
  intro table remarks hsided
  rw [retire_apply, retire_apply]
  dsimp only
  split
  · exact .ok () remarks (hsided.retired die)
  · exact .error _ remarks

theorem layDie_sameSteps (node : Nat) (sides : UInt32) (cause : Cause) :
    SameSteps (σ := σ) id (layDie node sides cause) (layDie node sides cause) := by
  intro table remarks hsided
  unfold layDie
  dsimp only
  rcases hface : FaceSource.answer sides table.source with ⟨error | face, source⟩
  · exact .error error remarks
  · exact .ok _ remarks (hsided.thrown (FaceSource.next_eq_ok_iff.mpr hface))

theorem throwDie_sameSteps (node : Nat) (sides : UInt32) (cause : Cause) :
    SameSteps (σ := σ) id (throwDie limits node sides cause)
      (throwDie limits node sides cause) := by
  intro table remarks hsided
  rw [throwDie_apply, throwDie_apply]
  dsimp only
  split
  · exact .error _ remarks
  · exact bind_sameSteps checkTime_sameSteps (fun _ => layDie_sameSteps node sides cause) table
      remarks hsided

end Steps

/-- No step of an evaluation depends on what has been remarked. -/
def remarking (limits : Limits) : Coupling σ σ limits limits where
  nodes := 0
  dice := 0
  Alike := SameSteps
  pure a := fun _ remarks hsided => .ok a remarks hsided
  throw error := fun _ remarks _ => .error error remarks
  bind := bind_sameSteps
  visit := bind_sameSteps checkTime_sameSteps fun _ table remarks hsided =>
    .ok table.nodes remarks hsided
  enter node value := fun _ remarks hsided => .ok value remarks hsided
  remark said := fun _ remarks hsided => .ok () (remarks.push (said.further 0)) hsided
  nextPlace := fun table remarks hsided => .ok table.trail.size remarks hsided
  throwDie node sides cause := by
    rw [Cause.further_zero]
    exact throwDie_sameSteps node sides cause
  faceOf := faceOf_sameSteps
  retire := retire_sameSteps
  depthLe := .refl _
  endless longer := absurd longer (Nat.lt_irrefl _)
  rollLarge node term large := by
    rw [rollTerm_of_large (or_self_iff.mp large), rollTerm_of_large (or_self_iff.mp large)]
    exact fun _ remarks _ => .error _ remarks

theorem further_remarking : (remarking (σ := σ) limits).further = id := by
  funext live
  simp [Coupling.further, remarking]

section Loops

theorem mapM_sameSteps {f : Nat → Roller σ α} (hf : ∀ die, SameSteps id (f die) (f die))
    (live : List Nat) : SameSteps id (live.mapM f) (live.mapM f) := by
  have hmap : SameSteps (List.map id) (live.mapM f) ((live.map id).mapM f) :=
    (remarking {}).mapM hf live
  rwa [List.map_id, List.map_id_fun] at hmap

theorem explodeLive_sameSteps {f : Nat → Roller σ (List Nat)}
    (hf : ∀ die, SameSteps id (f die) (f die)) (live : List Nat) :
    SameSteps id (explodeLive f live) (explodeLive f live) :=
  (remarking {}).bind (mapM_sameSteps hf live) fun added =>
    (remarking {}).pure (live ++ added.flatten)

variable {table : Table σ} {node die : Nat} {term : DiceTerm} {condition : Condition}
  {face : UInt32}

theorem rerollDie_of_fails (hshows : table.Shows die face)
    (hfails : condition.accepts face = false) (once : Bool) (depth : Nat) :
    rerollDie limits node term condition once depth die table = .ok die table := by
  unfold rerollDie
  refine bind_eq_ok.mpr ⟨face, table, faceOf_of_shows hshows, ?_⟩
  rw [hfails]
  rfl

theorem explodeDie_of_fails (hshows : table.Shows die face)
    (hfails : condition.accepts face = false) (depth : Nat) :
    explodeDie limits node term condition depth die table = .ok [] table := by
  rw [explodeDie_eq_chase]
  exact chase_of_fails hshows hfails depth

end Loops

section Modifiers

variable {node : Nat} {term : DiceTerm} {start table : Table σ} {live : List Nat}
  {condition : Condition}

/-- A step that leaves the live dice alone if no face can pass is the same as skipping it then. -/
theorem orSkip_same {step : Roller σ (List Nat)} (hstep : SameSteps id step step)
    (hsided : Sided table.source table.trail)
    (hidle : condition.satisfiable term.sides = false → ∀ remarks,
      step { table with remarks := remarks } = .ok live { table with remarks := remarks })
    (said : Remark) (remarks : Array Remark) :
    Same id ((if condition.satisfiable term.sides then step else do remark said; return live) table)
      (step { table with remarks := remarks }) := by
  obtain ⟨remarks', hresult⟩ := orSkip_apply said hidle
  rw [hresult]
  exact hstep { table with remarks := remarks' } remarks hsided

/-- Where no face can pass, all live dice fail. -/
theorem mapM_of_unsatisfiable (h : Underway limits node term start table live)
    (hstart : Sided start.source start.trail) {f : Nat → Roller σ α} {g : Nat → α}
    (hfails : ∀ {die face} {table : Table σ}, table.Shows die face →
      condition.accepts face = false → f die table = .ok (g die) table)
    (hskip : condition.satisfiable term.sides = false) (remarks : Array Remark) :
    live.mapM f { table with remarks := remarks } =
      .ok (live.map g) { table with remarks := remarks } :=
  mapM_of_reads fun _ hdie => hfails (h.shows hdie) (h.fails_of_unsatisfiable hstart hskip hdie)

theorem reroll_same (h : Underway limits node term start table live)
    (hstart : Sided start.source start.trail) {f : Nat → Roller σ Nat}
    (hf : ∀ die, SameSteps id (f die) (f die))
    (hfails : ∀ {die face} {table : Table σ}, table.Shows die face →
      condition.accepts face = false → f die table = .ok die table)
    (said : Remark) (remarks : Array Remark) :
    Same id ((if condition.satisfiable term.sides then live.mapM f else do
        remark said
        return live) table)
      (live.mapM f { table with remarks := remarks }) := by
  refine orSkip_same (mapM_sameSteps hf live) (h.keeps .sided hstart) (fun hskip remarks => ?_)
    said remarks
  have hidle := mapM_of_unsatisfiable h hstart hfails hskip remarks
  rwa [List.map_id'] at hidle

theorem explode_same (h : Underway limits node term start table live)
    (hstart : Sided start.source start.trail) {f : Nat → Roller σ (List Nat)}
    (hf : ∀ die, SameSteps id (f die) (f die))
    (hfails : ∀ {die face} {table : Table σ}, table.Shows die face →
      condition.accepts face = false → f die table = .ok [] table)
    (said : Remark) (remarks : Array Remark) :
    Same id ((if condition.satisfiable term.sides then explodeLive f live else do
        remark said
        return live) table)
      (explodeLive f live { table with remarks := remarks }) := by
  refine orSkip_same (explodeLive_sameSteps hf live) (h.keeps .sided hstart)
    (fun hskip remarks => ?_) said remarks
  have hidle := explodeLive_of_ok (mapM_of_unsatisfiable h hstart hfails hskip remarks)
  simpa using hidle

theorem applyModifier_same (h : Underway limits node term start table live)
    (hstart : Sided start.source start.trail) (modifier : Modifier) (remarks : Array Remark) :
    Same id (applyModifier limits node term live modifier table)
      (applyUnasked limits node term live modifier { table with remarks := remarks }) := by
  let c : Coupling σ σ limits limits := remarking limits
  have hmodifier := c.applyModifier node term live modifier
  rw [further_remarking] at hmodifier
  cases modifier with
  | keep rank amount => exact hmodifier table remarks (h.keeps .sided hstart)
  | drop rank amount => exact hmodifier table remarks (h.keeps .sided hstart)
  | reroll asked =>
    have hdie := c.rerollDie node term (asked.getD (.isFace 1)) false (limits.rerolls false)
    rw [c.rerolls_add] at hdie
    exact reroll_same h hstart hdie (fun hshows hfails => rerollDie_of_fails hshows hfails _ _) _
      remarks
  | rerollOnce asked =>
    have hdie := c.rerollDie node term (asked.getD (.isFace 1)) true (limits.rerolls true)
    rw [c.rerolls_add] at hdie
    exact reroll_same h hstart hdie (fun hshows hfails => rerollDie_of_fails hshows hfails _ _) _
      remarks
  | explode asked =>
    have hdie := c.explodeDie node term (asked.getD (.isFace term.sides)) limits.rerollDepth
    rw [c.depth_add_extra, further_remarking] at hdie
    exact explode_same h hstart hdie (fun hshows hfails => explodeDie_of_fails hshows hfails _) _
      remarks

theorem modifiers_same (h : Underway limits node term start table live)
    (hstart : Sided start.source start.trail) (modifiers : List Modifier)
    (remarks : Array Remark) :
    Same id (modifiers.foldlM (applyModifier limits node term) live table)
      (modifiers.foldlM (applyUnasked limits node term) live
        { table with remarks := remarks }) := by
  induction modifiers generalizing table live remarks with
  | nil => exact .ok live remarks (h.keeps .sided hstart)
  | cons modifier modifiers ih =>
    rw [List.foldlM_cons, List.foldlM_cons]
    refine (applyModifier_same h hstart modifier remarks).bind fun left after remarks hleft _ => ?_
    exact ih (h.applied hleft) remarks

end Modifiers

theorem rollTerm_sameSteps (node : Nat) (term : DiceTerm) :
    SameSteps (σ := σ) id (rollTerm limits node term)
      (rollTermBy applyUnasked limits node term) := by
  let c : Coupling σ σ limits limits := remarking limits
  have hsum (live : List Nat) : SameSteps (σ := σ) id
      (do
        let value ← sumOf term live
        remark (.rolled node term value)
        return value)
      (do
        let value ← sumOf term live
        remark (.rolled node term value)
        return value) := by
    have hlive := c.sumOf term live
    rw [further_remarking] at hlive
    exact c.bind hlive fun value => c.bind (c.remark _) fun _ => c.pure value
  unfold rollTerm rollTermBy
  refine c.guard (c.guard fun table remarks hsided => ?_)
  refine (c.throwDice node term.sides term.count.toNat table remarks hsided).bind
    fun _ thrown remarks hthrow _ => ?_
  have hmodifiers := modifiers_same (.of_throwDice hthrow) hsided term.modifiers remarks
  exact hmodifiers.bind fun live after remarks _ hsided => hsum live after remarks hsided

theorem rollNodes_sameSteps (expression : Expression) :
    SameSteps (σ := σ) id (rollNodes limits expression)
      (rollNodesBy applyUnasked limits expression) := by
  let c : Coupling σ σ limits limits := remarking limits
  induction expression with
  | literal value => exact c.bind c.visit fun node => c.enter node value
  | dice term =>
    exact c.bind c.visit fun node => c.bind (rollTerm_sameSteps node term) fun value =>
      c.enter node value
  | binary operator left right ihLeft ihRight =>
    refine c.bind c.visit fun node => c.bind ihLeft fun leftValue => c.bind ihRight fun value => ?_
    exact c.bind (c.settle (operator.apply leftValue value)) fun value => c.enter node value
  | group inner ih => exact c.bind c.visit fun node => c.bind ih fun value => c.enter node value
  | negate inner ih =>
    refine c.bind c.visit fun node => c.bind ih fun value => ?_
    exact c.bind (c.settle (negated value)) fun value => c.enter node value

theorem rollExpression_sameSteps (expression : Expression) :
    SameSteps (σ := σ) id (rollExpression limits expression)
      (rollExpressionBy applyUnasked limits expression) := by
  let c : Coupling σ σ limits limits := remarking limits
  unfold rollExpression rollExpressionBy
  refine c.guard (c.bind (rollNodes_sameSteps expression) fun total table remarks hsided => ?_)
  exact .ok (⟨total, table.trail, table.subTotals⟩ : Evaluation) remarks hsided

end Roller

/-- What it takes to hand out nothing but sides: to refuse a die without sides, and to show one of
the sides of any other. -/
theorem handsSides_iff {σ : Type} [FaceSource σ] {source : σ} :
    HandsSides source ↔
      (∀ state, HandedFrom source state → FaceSource.RejectsNoSides state) ∧
        ∀ state, HandedFrom source state → ∀ sides face after, sides ≠ 0 →
          FaceSource.next sides state = .ok (face, after) → 1 ≤ face ∧ face ≤ sides := by
  constructor
  · intro h
    refine ⟨fun state hstate drawn hnext => ?_, fun state hstate sides face after _ hnext =>
      h state hstate sides face after hnext⟩
    obtain ⟨hone, hzero⟩ := h state hstate 0 drawn.1 drawn.2 hnext
    exact absurd (UInt32.le_trans hone hzero) (by decide)
  · rintro ⟨hrejects, hsides⟩ state hstate sides face after hnext
    by_cases hzero : sides = 0
    · exact absurd (hzero ▸ hnext) (hrejects state hstate _)
    · exact hsides state hstate sides face after hzero hnext

/-- Whether conditions that no face can pass are skipped makes no difference to a roll, as long as
the source refuses dice without sides and shows a side of any other die. The result is the same or
the error is, and so is all that is left on the table but for the remarks: the trail of the dice
that were thrown, the source, and how often the time was looked at. -/
theorem Expression.rollBy_applyUnasked {σ : Type} [FaceSource σ] (limits : Limits)
    (expression : Expression) (source : σ)
    (hrejects : ∀ state, HandedFrom source state → FaceSource.RejectsNoSides state)
    (hsides : ∀ state, HandedFrom source state → ∀ sides face after, sides ≠ 0 →
      FaceSource.next sides state = .ok (face, after) → 1 ≤ face ∧ face ≤ sides) :
    expression.rollAtBy Roller.applyModifier limits source = expression.rollAt limits source ∧
      expression.rollBy Roller.applyUnasked limits source = expression.roll limits source ∧
      (∀ evaluation table, expression.rollAt limits source = .ok evaluation table → ∃ remarks,
        expression.rollAtBy Roller.applyUnasked limits source =
          .ok evaluation { table with remarks := remarks }) ∧
      ∀ error table, expression.rollAt limits source = .error error table → ∃ remarks,
        expression.rollAtBy Roller.applyUnasked limits source =
          .error error { table with remarks := remarks } := by
  have hfresh : Sided source #[] := .fresh (handsSides_iff.mpr ⟨hrejects, hsides⟩)
  have hsame : Roller.Same id (expression.rollAt limits source)
      (expression.rollAtBy Roller.applyUnasked limits source) :=
    Roller.rollExpression_sameSteps expression (.fresh source) #[] hfresh
  refine ⟨rollAtBy_applyModifier limits expression source, ?_⟩
  unfold rollBy roll
  generalize expression.rollAt limits source = skipped at hsame ⊢
  generalize expression.rollAtBy Roller.applyUnasked limits source = unasked at hsame ⊢
  cases hsame with
  | ok evaluation remarks =>
    refine ⟨rfl, fun _ table heq => ?_, nofun⟩
    cases heq
    exact ⟨remarks, rfl⟩
  | error error remarks =>
    refine ⟨rfl, nofun, fun _ table heq => ?_⟩
    cases heq
    exact ⟨remarks, rfl⟩

/-- No die of six sides shows a seven. -/
theorem Expression.rollBy_applyUnasked_of_sevens :
    HandsSides (Script.ofList [2, 6, 4]) ∧
      (dice ⟨3, 6, [.reroll (some ⟨.equal, 7⟩), .explode (some ⟨.greater, 6⟩)]⟩).rollBy
          Roller.applyUnasked {} (Script.ofList [2, 6, 4]) =
        (.ok ⟨12, #[⟨0, 6, 2, true, none, none⟩, ⟨0, 6, 6, true, none, none⟩,
          ⟨0, 6, 4, true, none, none⟩], SubTotals.insert ∅ 0 12⟩, ⟨#[2, 6, 4], 3⟩) := by
  have hsource : HandsSides (Script.ofList [2, 6, 4]) :=
    handsSides_of_showsSides rfl (Script.showsSides _)
  have hroll : (dice ⟨3, 6, [.reroll (some ⟨.equal, 7⟩), .explode (some ⟨.greater, 6⟩)]⟩).roll {}
      (Script.ofList [2, 6, 4]) =
      (.ok ⟨12, #[⟨0, 6, 2, true, none, none⟩, ⟨0, 6, 6, true, none, none⟩,
        ⟨0, 6, 4, true, none, none⟩], SubTotals.insert ∅ 0 12⟩, ⟨#[2, 6, 4], 3⟩) := by
    decide +kernel
  obtain ⟨hrejects, hsides⟩ := handsSides_iff.mp hsource
  exact ⟨hsource, (rollBy_applyUnasked {} _ _ hrejects hsides).2.1.trans hroll⟩

end DiceNotation
