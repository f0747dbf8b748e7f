import DiceNotation.Roll.Evaluation

/-!
# Evaluations that go alike

Two evaluations of the same expression are compared step by step. The nodes and the dice of the
second are numbered further on than those of the first, each by a fixed distance, and it has limits
of its own. Whatever it means for two steps to go alike, if it holds of the basic steps, is kept by
sequencing and bears with the limits, it holds of evaluations as a whole.
-/
namespace DiceNotation

/-- The place of the next die on the trail. -/
def Roller.nextPlace {σ : Type} : Roller σ Nat := do
  return (← get).trail.size

/-- The same cause when the dice are numbered further on. -/
def Cause.further (dice : Nat) : Cause → Cause
  | .term => .term
  | .reroll die => .reroll (die + dice)
  | .explosion die => .explosion (die + dice)

@[simp] theorem Cause.further_zero (cause : Cause) : cause.further 0 = cause := by
  cases cause <;> rfl

/-- The same remark when the nodes are numbered further on. -/
def Remark.further (nodes : Nat) : Remark → Remark
  | .rolled node term value => .rolled (node + nodes) term value
  | said => said

@[simp] theorem Remark.further_zero (said : Remark) : said.further 0 = said := by
  cases said <;> rfl

/-- The second limits let a die go on for as long as the first ones do. -/
def Limits.DepthLe (limits limits' : Limits) : Prop := limits.rerollDepth ≤ limits'.rerollDepth

theorem Limits.DepthLe.refl (limits : Limits) : limits.DepthLe limits := Nat.le_refl _

/-- What it means for steps of two evaluations to go alike, with what an evaluation needs of it. -/
structure Coupling (σ τ : Type) [FaceSource σ] [FaceSource τ] (limits limits' : Limits) where
  /-- How much further on the second evaluation numbers its nodes. -/
  nodes : Nat
  /-- How much further on the second evaluation numbers its dice. -/
  dice : Nat
  /-- The steps go alike, and the second gives the image of what the first one gives. -/
  Alike {α β : Type} (image : α → β) (first : Roller σ α) (second : Roller τ β) : Prop
  protected pure {α β : Type} {image : α → β} (a : α) : Alike image (pure a) (pure (image a))
  protected throw {α β : Type} {image : α → β} (error : RollError) :
    Alike image (throw error) (throw error)
  protected bind {α β γ δ : Type} {image : α → β} {image' : γ → δ} {first : Roller σ α}
    {second : Roller τ β} {next : α → Roller σ γ} {next' : β → Roller τ δ}
    (start : Alike image first second) (rest : ∀ a, Alike image' (next a) (next' (image a))) :
    Alike image' (first >>= next) (second >>= next')
  visit : Alike (· + nodes) (Roller.visit limits) (Roller.visit limits')
  enter (node : Nat) (value : Int64) :
    Alike id (Roller.enter node value) (Roller.enter (node + nodes) value)
  remark (said : Remark) : Alike id (Roller.remark said) (Roller.remark (said.further nodes))
  nextPlace : Alike (· + dice) Roller.nextPlace Roller.nextPlace
  throwDie (node : Nat) (sides : UInt32) (cause : Cause) :
    Alike (· + dice) (Roller.throwDie limits node sides cause)
      (Roller.throwDie limits' (node + nodes) sides (cause.further dice))
  faceOf (die : Nat) : Alike id (Roller.faceOf die) (Roller.faceOf (die + dice))
  retire (die : Nat) : Alike id (Roller.retire die) (Roller.retire (die + dice))
  depthLe : limits.DepthLe limits'
  /-- Where the second evaluation lets a die go on for longer, whatever it does then goes alike. -/
  endless {α β : Type} {image : α → β} {error : RollError}
    (longer : limits.rerollDepth < limits'.rerollDepth) (kind : error.kind = .infiniteReroll)
    (second : Roller τ β) : Alike image (MonadExcept.throw error) second
  /-- A term with more dice than one of the evaluations allows. -/
  rollLarge (node : Nat) (term : DiceTerm)
    (large : limits.dice < term.count.toNat ∨ limits'.dice < term.count.toNat) :
    Alike id (Roller.rollTerm limits node term) (Roller.rollTerm limits' (node + nodes) term)

namespace Coupling

variable {σ τ : Type} [FaceSource σ] [FaceSource τ] {limits limits' : Limits}
  (c : Coupling σ τ limits limits') {α β γ δ : Type}

/-- The same dice in the numbering of the second evaluation. -/
def further (dice : List Nat) : List Nat := dice.map (· + c.dice)

theorem pure_of_eq {image : α → β} {a : α} {b : β} (h : image a = b) :
    c.Alike image (pure a) (pure b) := h ▸ c.pure a

section Lists

theorem mapM {image : α → β} {image' : γ → δ} {f : α → Roller σ γ} {g : β → Roller τ δ}
    (h : ∀ a, c.Alike image' (f a) (g (image a))) (as : List α) :
    c.Alike (List.map image') (as.mapM f) ((as.map image).mapM g) := by
  induction as with
  | nil => exact c.pure []
  | cons a as ih =>
    rw [List.map_cons, List.mapM_cons, List.mapM_cons]
    exact c.bind (h a) fun b => c.bind ih fun bs => c.pure (b :: bs)

theorem forM {image : α → β} {f : α → Roller σ PUnit} {g : β → Roller τ PUnit}
    (h : ∀ a, c.Alike id (f a) (g (image a))) (as : List α) :
    c.Alike id (as.forM f) ((as.map image).forM g) := by
  induction as with
  | nil => exact c.pure ()
  | cons a as ih => exact c.bind (h a) fun _ => ih

theorem foldlM {image : β → δ} {f : β → α → Roller σ β} {g : δ → α → Roller τ δ}
    (h : ∀ b a, c.Alike image (f b a) (g (image b) a)) (as : List α) (b : β) :
    c.Alike image (as.foldlM f b) (as.foldlM g (image b)) := by
  induction as generalizing b with
  | nil => exact c.pure b
  | cons a as ih =>
    rw [List.foldlM_cons, List.foldlM_cons]
    exact c.bind (h b a) ih

end Lists

/-- A check that throws when the condition holds, in front of steps that go alike. -/
theorem guard {image : α → β} {condition : Prop} [Decidable condition] {error : RollError}
    {next : PUnit → Roller σ α} {next' : PUnit → Roller τ β}
    (h : c.Alike image (next ()) (next' ())) :
    c.Alike image (if condition then throw error >>= next else next ())
      (if condition then throw error >>= next' else next' ()) := by
  have hthrow : c.Alike (id : PUnit → PUnit) (throw error) (throw error) := c.throw error
  split
  · exact c.bind hthrow fun _ => h
  · exact h

theorem ite {image : α → β} {condition : Prop} [Decidable condition] {x x' : Roller σ α}
    {y y' : Roller τ β} (h : c.Alike image x y) (h' : c.Alike image x' y') :
    c.Alike image (if condition then x else x') (if condition then y else y') := by
  split
  · exact h
  · exact h'

section Modifiers

variable (node : Nat) (term : DiceTerm) (condition : Condition) (rank : Rank) (amount : UInt32)

theorem sumOf (live : List Nat) :
    c.Alike id (Roller.sumOf term live) (Roller.sumOf term (c.further live)) := by
  have hadd (value : Int64) (die : Nat) :
      c.Alike id (Roller.addFace term value die) (Roller.addFace term value (die + c.dice)) := by
    refine c.bind (c.faceOf die) fun face => ?_
    rw [id]
    cases narrow? (value.toInt + face.toNat) with
    | none => exact c.throw _
    | some value => exact c.pure value
  rw [Roller.sumOf, Roller.sumOf, further, List.foldlM_map]
  exact c.foldlM hadd live 0

theorem checkAmount :
    c.Alike id (Roller.checkAmount term amount) (Roller.checkAmount term amount) :=
  c.ite (c.throw _) (c.pure ())

theorem ranked (live : List Nat) :
    c.Alike c.further (Roller.ranked rank live) (Roller.ranked rank (c.further live)) := by
  have hpair (die : Nat) : c.Alike (Prod.map (· + c.dice) id)
      (do return (die, ← Roller.faceOf die)) (do return (die + c.dice, ← Roller.faceOf _)) :=
    c.bind (c.faceOf die) fun face => c.pure (die, face)
  have hthrows : (c.further live).mergeSort (· ≤ ·) = (live.mergeSort (· ≤ ·)).map (· + c.dice) :=
    (List.map_mergeSort fun die _ other _ => by simp).symm
  have hfaces (faces : List (Nat × UInt32)) :
      (faces.map (Prod.map (· + c.dice) id)).mergeSort rank.inOrder =
        (faces.mergeSort rank.inOrder).map (Prod.map (· + c.dice) id) := by
    symm
    exact List.map_mergeSort fun _ _ _ _ => by cases rank <;> rfl
  unfold Roller.ranked
  rw [hthrows]
  refine c.bind (c.mapM hpair _) fun faces => c.pure_of_eq ?_
  rw [hfaces, further, List.map_map, List.map_map]
  rfl

theorem dropDice (live dropped : List Nat) :
    c.Alike c.further (Roller.dropDice live dropped)
      (Roller.dropDice (c.further live) (c.further dropped)) := by
  refine c.bind (c.forM c.retire dropped) fun _ => ?_
  refine c.pure_of_eq ?_
  simp [further, List.filter_map, Function.comp_def]

theorem dropRanked (pick : List Nat → List Nat)
    (hpick : ∀ ranking, pick (c.further ranking) = c.further (pick ranking)) (live : List Nat) :
    c.Alike c.further
      (do
        Roller.checkAmount term amount
        let ranking ← Roller.ranked rank live
        Roller.dropDice live (pick ranking))
      (do
        Roller.checkAmount term amount
        let ranking ← Roller.ranked rank (c.further live)
        Roller.dropDice (c.further live) (pick ranking)) := by
  refine c.bind (c.checkAmount term amount) fun _ => c.bind (c.ranked rank live) fun ranking => ?_
  rw [hpick]
  exact c.dropDice live (pick ranking)

theorem applyKeep (live : List Nat) :
    c.Alike c.further (Roller.applyKeep term rank amount live)
      (Roller.applyKeep term rank amount (c.further live)) :=
  c.dropRanked term rank amount (List.drop amount.toNat) (fun _ => List.map_drop.symm) live

theorem applyDrop (live : List Nat) :
    c.Alike c.further (Roller.applyDrop term rank amount live)
      (Roller.applyDrop term rank amount (c.further live)) :=
  c.dropRanked term rank amount (List.take amount.toNat) (fun _ => List.map_take.symm) live

theorem replaceDie (die : Nat) :
    c.Alike (· + c.dice) (Roller.replaceDie limits node term die)
      (Roller.replaceDie limits' (node + c.nodes) term (die + c.dice)) :=
  c.bind (c.retire die) fun _ => c.throwDie node term.sides (.reroll die)

/-- Both evaluations look at the same face, so both go on or both stop. -/
theorem whenAccepted {image : α → β} {die : Nat} {x x' : Roller σ α} {y y' : Roller τ β}
    (h : c.Alike image x y) (h' : c.Alike image x' y') :
    c.Alike image (do if condition.accepts (← Roller.faceOf die) then x else x')
      (do if condition.accepts (← Roller.faceOf (die + c.dice)) then y else y') :=
  c.bind (c.faceOf die) fun _ => c.ite h h'

/-- How much longer the second evaluation lets a die go on. -/
def extra (_ : Coupling σ τ limits limits') : Nat := limits'.rerollDepth - limits.rerollDepth

theorem depth_add_extra : limits.rerollDepth + c.extra = limits'.rerollDepth :=
  Nat.add_sub_cancel' c.depthLe

/-- The second evaluation stops a die where the first one does, or lets it go on. -/
theorem extra_cases :
    (c.extra = 0 ∧ limits.rerollDepth = limits'.rerollDepth) ∨
      ∃ extra, c.extra = extra + 1 ∧ limits.rerollDepth < limits'.rerollDepth := by
  have hdepth := c.depth_add_extra
  cases hextra : c.extra with
  | zero => exact .inl ⟨rfl, by omega⟩
  | succ extra => exact .inr ⟨extra, rfl, by omega⟩

theorem stopped (image : α → β) (error : Nat → RollError)
    (h : limits.rerollDepth = limits'.rerollDepth) :
    c.Alike image (throw (error limits.rerollDepth)) (throw (error limits'.rerollDepth)) := by
  rw [h]
  exact c.throw _

/-- A die that is rerolled only once stops in both evaluations alike. -/
theorem rerollDie (once : Bool) (depth die : Nat) :
    c.Alike (· + c.dice) (Roller.rerollDie limits node term condition once depth die)
      (Roller.rerollDie limits' (node + c.nodes) term condition once
        (depth + if once then 0 else c.extra) (die + c.dice)) := by
  induction depth generalizing die with
  | zero =>
    rw [Nat.zero_add]
    cases once with
    | true => exact c.whenAccepted condition (c.pure die) (c.pure die)
    | false =>
      rw [if_neg Bool.false_ne_true]
      rcases c.extra_cases with ⟨hextra, hdepth⟩ | ⟨extra, hextra, hlonger⟩
      · have hstop := c.stopped (· + c.dice) (.endlessReroll term condition) hdepth
        rw [hextra]
        exact c.whenAccepted condition hstop (c.pure die)
      · rw [hextra]
        exact c.whenAccepted condition (c.endless hlonger rfl _) (c.pure die)
  | succ depth ih =>
    rw [Nat.succ_add]
    exact c.whenAccepted condition (c.bind (c.replaceDie node term die) ih) (c.pure die)

theorem rerolls_add (once : Bool) :
    (limits.rerolls once + if once then 0 else c.extra) = limits'.rerolls once := by
  cases once with
  | true => rfl
  | false => exact c.depth_add_extra

theorem explodeDie (depth die : Nat) :
    c.Alike c.further (Roller.explodeDie limits node term condition depth die)
      (Roller.explodeDie limits' (node + c.nodes) term condition (depth + c.extra)
        (die + c.dice)) := by
  induction depth generalizing die with
  | zero =>
    rw [Nat.zero_add]
    rcases c.extra_cases with ⟨hextra, hdepth⟩ | ⟨extra, hextra, hlonger⟩
    · have hstop := c.stopped c.further (.endlessExplosion term condition) hdepth
      rw [hextra]
      exact c.whenAccepted condition hstop (c.pure [])
    · rw [hextra]
      exact c.whenAccepted condition (c.endless hlonger rfl _) (c.pure [])
  | succ depth ih =>
    rw [Nat.succ_add]
    refine c.whenAccepted condition ?_ (c.pure [])
    refine c.bind (c.throwDie node term.sides (.explosion die)) fun added => ?_
    exact c.bind (ih added) fun others => c.pure (added :: others)

/-- Whether a face can pass depends on the term alone; if none can, nothing is rolled. -/
theorem orSkip {said : Remark} {live : List Nat} {x : Roller σ (List Nat)}
    {y : Roller τ (List Nat)} (h : c.Alike c.further x y) :
    c.Alike c.further
      (if condition.satisfiable term.sides then x else do Roller.remark said; return live)
      (if condition.satisfiable term.sides then y else do
        Roller.remark (said.further c.nodes); return c.further live) :=
  c.ite h (c.bind (c.remark said) fun _ => c.pure live)

theorem applyReroll (once : Bool) (live : List Nat) :
    c.Alike c.further (Roller.applyReroll limits node term condition once live)
      (Roller.applyReroll limits' (node + c.nodes) term condition once (c.further live)) := by
  have hreroll := c.mapM (c.rerollDie node term condition once (limits.rerolls once)) live
  rw [c.rerolls_add] at hreroll
  exact c.orSkip term condition hreroll

theorem further_append (dice others : List Nat) :
    c.further (dice ++ others) = c.further dice ++ c.further others := List.map_append

theorem further_flatten (dice : List (List Nat)) :
    c.further dice.flatten = (dice.map c.further).flatten := List.map_flatten

theorem further_range' (start count : Nat) :
    c.further (List.range' start count) = List.range' (start + c.dice) count := by
  rw [further, Nat.add_comm start, ← List.map_add_range']
  simp [Nat.add_comm]

theorem applyExplode (live : List Nat) :
    c.Alike c.further (Roller.applyExplode limits node term condition live)
      (Roller.applyExplode limits' (node + c.nodes) term condition (c.further live)) := by
  have hexplode := c.mapM (c.explodeDie node term condition limits.rerollDepth) live
  rw [c.depth_add_extra] at hexplode
  refine c.orSkip term condition (c.bind hexplode fun added => c.pure_of_eq ?_)
  rw [further_append, further_flatten]

theorem applyModifier (live : List Nat) (modifier : Modifier) :
    c.Alike c.further (Roller.applyModifier limits node term live modifier)
      (Roller.applyModifier limits' (node + c.nodes) term (c.further live) modifier) := by
  cases modifier with
  | keep rank amount => exact c.applyKeep term rank amount live
  | drop rank amount => exact c.applyDrop term rank amount live
  | reroll condition => exact c.applyReroll node term _ false live
  | rerollOnce condition => exact c.applyReroll node term _ true live
  | explode condition => exact c.applyExplode node term _ live

end Modifiers

theorem throwDice (node : Nat) (sides : UInt32) (count : Nat) :
    c.Alike id (Roller.throwDice limits node sides count)
      (Roller.throwDice limits' (node + c.nodes) sides count) := by
  induction count with
  | zero => exact c.pure ()
  | succ count ih => exact c.bind (c.throwDie node sides .term) fun _ => ih

theorem rollTerm (node : Nat) (term : DiceTerm) :
    c.Alike id (Roller.rollTerm limits node term)
      (Roller.rollTerm limits' (node + c.nodes) term) := by
  have hmodifiers (thrown : List Nat) := c.foldlM (c.applyModifier node term) term.modifiers thrown
  have hroll : c.Alike id
      (do
        let start ← Roller.nextPlace
        Roller.throwDice limits node term.sides term.count.toNat
        let live ← term.modifiers.foldlM (Roller.applyModifier limits node term)
          (List.range' start term.count.toNat)
        let value ← Roller.sumOf term live
        Roller.remark (.rolled node term value)
        return value)
      (do
        let start ← Roller.nextPlace
        Roller.throwDice limits' (node + c.nodes) term.sides term.count.toNat
        let live ← term.modifiers.foldlM (Roller.applyModifier limits' (node + c.nodes) term)
          (List.range' start term.count.toNat)
        let value ← Roller.sumOf term live
        Roller.remark (.rolled (node + c.nodes) term value)
        return value) := by
    refine c.bind c.nextPlace fun start => c.bind (c.throwDice node _ _) fun _ => ?_
    rw [← c.further_range']
    refine c.bind (hmodifiers _) fun live => c.bind (c.sumOf term live) fun value => ?_
    exact c.bind (c.remark _) fun _ => c.pure value
  by_cases hlarge : limits.dice < term.count.toNat ∨ limits'.dice < term.count.toNat
  · exact c.rollLarge node term hlarge
  · obtain ⟨hfits, hfits'⟩ := not_or.mp hlarge
    unfold Roller.rollTerm
    refine c.guard ?_
    rw [if_neg hfits, if_neg hfits']
    exact hroll

theorem settle (result : Except RollError α) :
    c.Alike id (Roller.settle result) (Roller.settle result) := by
  cases result with
  | error error => exact c.throw error
  | ok value => exact c.pure value

/-- An expression is rolled alike, and has the same value. -/
theorem rollNodes (expression : Expression) :
    c.Alike id (Roller.rollNodes limits expression) (Roller.rollNodes limits' expression) := by
  induction expression with
  | literal value => exact c.bind c.visit fun node => c.enter node value
  | dice term =>
    exact c.bind c.visit fun node => c.bind (c.rollTerm node term) fun value => c.enter node value
  | binary operator left right ihLeft ihRight =>
    refine c.bind c.visit fun node => c.bind ihLeft fun leftValue => c.bind ihRight fun value => ?_
    exact c.bind (c.settle (operator.apply leftValue value)) fun value => c.enter node value
  | group inner ih => exact c.bind c.visit fun node => c.bind ih fun value => c.enter node value
  | negate inner ih =>
    refine c.bind c.visit fun node => c.bind ih fun value => ?_
    exact c.bind (c.settle (negated value)) fun value => c.enter node value

end Coupling

end DiceNotation
