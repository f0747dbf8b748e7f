import DiceNotation.Proofs.Provenance
import DiceNotation.Proofs.Underway

/-!
# Reckoning an expression exactly

A reckoning rolls the same dice in the same order as an evaluation, but its values are integers
without bounds. It keeps a ledger of the nodes whose values are reckoned, children before parents,
and goes on whether or not a value would do for an evaluation.
-/
namespace DiceNotation

/-- The nodes of an expression with children before parents and left before right, with the numbers
that they have in pre-order. -/
def Expression.postorder : Nat → Expression → List (Nat × Expression)
  | node, literal value => [(node, literal value)]
  | node, dice term => [(node, dice term)]
  | node, binary operator left right =>
    postorder (node + 1) left ++ postorder (node + 1 + left.size) right ++
      [(node, binary operator left right)]
  | node, group inner => postorder (node + 1) inner ++ [(node, group inner)]
  | node, negate inner => postorder (node + 1) inner ++ [(node, negate inner)]

theorem Expression.postorder_perm (node : Nat) (expression : Expression) :
    (expression.postorder node).Perm (expression.numbered node) := by
  induction expression generalizing node with
  | literal value => exact .refl _
  | dice term => exact .refl _
  | binary operator left right ihLeft ihRight =>
    exact List.perm_append_comm.trans (((ihLeft _).append (ihRight _)).cons _)
  | group inner ih => exact List.perm_append_comm.trans ((ih _).cons _)
  | negate inner ih => exact List.perm_append_comm.trans ((ih _).cons _)

/-- A value in integers without bounds. -/
structure ExactValue where
  /-- The value, where a quotient by zero counts as zero. -/
  value : Int
  /-- Whether it is a quotient by zero. -/
  byZero : Bool
  deriving DecidableEq

namespace ExactValue

def Fits (exact : ExactValue) : Prop :=
  exact.byZero = false ∧ -9223372036854775808 ≤ exact.value ∧ exact.value ≤ 9223372036854775807

instance (exact : ExactValue) : Decidable exact.Fits := inferInstanceAs (Decidable (_ ∧ _ ∧ _))

def offence (exact : ExactValue) : RollError.Kind :=
  if exact.byZero then .divisionByZero else .arithmeticOverflow

end ExactValue

/-- The values of operators on integers; a quotient is cut off toward zero. -/
def Operator.onIntegers : Operator → Int → Int → ExactValue
  | .add, left, right => ⟨left + right, false⟩
  | .sub, left, right => ⟨left - right, false⟩
  | .mul, left, right => ⟨left * right, false⟩
  | .div, left, right => ⟨left.tdiv right, right = 0⟩

/-- A node whose value is reckoned, with what is left of the source by then and the trail. -/
structure Reckoned (σ : Type) where
  node : Nat
  expression : Expression
  exact : ExactValue
  source : σ
  trail : Trail
  deriving DecidableEq

def Reckoned.numbered {σ : Type} (entry : Reckoned σ) : Nat × Expression :=
  (entry.node, entry.expression)

structure Ledger (σ : Type) where
  table : Table σ
  /-- The nodes whose values are reckoned so far, in that order. -/
  entries : List (Reckoned σ)
  deriving DecidableEq

namespace Ledger

variable {σ : Type}

def listed (ledger : Ledger σ) : List (Nat × Expression) := ledger.entries.map Reckoned.numbered

def visited (ledger : Ledger σ) (readings : Nat) : Ledger σ :=
  { ledger with table := { ledger.table with readings, nodes := ledger.table.nodes + 1 } }

@[simp] theorem listed_visited (ledger : Ledger σ) (readings : Nat) :
    (ledger.visited readings).listed = ledger.listed := rfl

@[simp] theorem nodes_visited (ledger : Ledger σ) (readings : Nat) :
    (ledger.visited readings).table.nodes = ledger.table.nodes + 1 := rfl

def recorded (ledger : Ledger σ) (node : Nat) (expression : Expression) (exact : ExactValue) :
    Ledger σ :=
  { ledger with entries := ledger.entries ++
    [⟨node, expression, exact, ledger.table.source, ledger.table.trail⟩] }

@[simp] theorem listed_recorded (ledger : Ledger σ) (node : Nat) (expression : Expression)
    (exact : ExactValue) :
    (ledger.recorded node expression exact).listed =
      ledger.listed ++ [(node, expression)] := List.map_append

@[simp] theorem table_recorded (ledger : Ledger σ) (node : Nat) (expression : Expression)
    (exact : ExactValue) :
    (ledger.recorded node expression exact).table = ledger.table := rfl

end Ledger

/-- A step of a reckoning; one that fails leaves the ledger as it is then. -/
abbrev Reckoner (σ : Type) := EStateM RollError (Ledger σ)

namespace Reckoner

variable {σ α β : Type}

/-- Takes a step of an evaluation at the table. -/
def atTable (step : Roller σ α) : Reckoner σ α := fun ledger =>
  match step ledger.table with
  | .ok a table => .ok a { ledger with table := table }
  | .error error table => .error error { ledger with table := table }

def record (node : Nat) (expression : Expression) (exact : ExactValue) : Reckoner σ Int :=
  fun ledger => .ok exact.value (ledger.recorded node expression exact)

/-- Reckons a node with all below it, and gives its value. -/
def reckonNodes [FaceSource σ] (limits : Limits) : Expression → Reckoner σ Int
  | .literal value => do
    let node ← atTable (Roller.visit limits)
    record node (.literal value) ⟨value.toInt, false⟩
  | .dice term => do
    let node ← atTable (Roller.visit limits)
    let faces ← atTable (Roller.rollFaces limits node term)
    record node (.dice term) ⟨totalOf faces, false⟩
  | .binary operator left right => do
    let node ← atTable (Roller.visit limits)
    let leftValue ← reckonNodes limits left
    let rightValue ← reckonNodes limits right
    record node (.binary operator left right) (operator.onIntegers leftValue rightValue)
  | .group inner => do
    let node ← atTable (Roller.visit limits)
    let value ← reckonNodes limits inner
    record node (.group inner) ⟨value, false⟩
  | .negate inner => do
    let node ← atTable (Roller.visit limits)
    let value ← reckonNodes limits inner
    record node (.negate inner) ⟨-value, false⟩

def reckonExpression [FaceSource σ] (limits : Limits) (expression : Expression) :
    Reckoner σ Int := do
  if limits.nodes < expression.nodeCount then
    throw (.tooManyNodes expression.nodeCount limits.nodes)
  reckonNodes limits expression

end Reckoner

def Expression.reckon {σ : Type} [FaceSource σ] (limits : Limits) (expression : Expression)
    (source : σ) : EStateM.Result RollError (Ledger σ) Int :=
  Reckoner.reckonExpression limits expression ⟨.fresh source, []⟩

namespace Reckoner

variable {σ α β : Type}

def ledgerOf : EStateM.Result RollError (Ledger σ) α → Ledger σ
  | .ok _ ledger => ledger
  | .error _ ledger => ledger

section Ensures

/-- What holds of the value and the ledger if the step goes through, and of the ledger if it
fails. -/
def Ensures (step : Reckoner σ α) (start : Ledger σ) (good : α → Ledger σ → Prop)
    (failed : Ledger σ → Prop) : Prop :=
  match step start with
  | .ok a ledger => good a ledger
  | .error _ ledger => failed ledger

variable {start : Ledger σ} {good : α → Ledger σ → Prop} {failed : Ledger σ → Prop}

theorem Ensures.of_ok {step : Reckoner σ α} (h : Ensures step start good failed) {a : α}
    {ledger : Ledger σ} (hok : step start = .ok a ledger) : good a ledger := by
  unfold Ensures at h
  rwa [hok] at h

theorem Ensures.of_error {step : Reckoner σ α} (h : Ensures step start good failed)
    {error : RollError} {ledger : Ledger σ} (herror : step start = .error error ledger) :
    failed ledger := by
  unfold Ensures at h
  rwa [herror] at h

theorem Ensures.imp {step : Reckoner σ α} {good' : α → Ledger σ → Prop} {failed' : Ledger σ → Prop}
    (h : Ensures step start good failed) (hgood : ∀ a ledger, good a ledger → good' a ledger)
    (hfailed : ∀ ledger, failed ledger → failed' ledger) : Ensures step start good' failed' := by
  unfold Ensures
  cases hresult : step start with
  | ok a ledger => exact hgood a ledger (h.of_ok hresult)
  | error error ledger => exact hfailed ledger (h.of_error hresult)

theorem Ensures.ledgerOf {step : Reckoner σ α}
    (h : Ensures step start (fun _ ledger => failed ledger) failed) :
    failed (ledgerOf (step start)) := by
  cases hresult : step start with
  | ok a ledger => exact h.of_ok hresult
  | error error ledger => exact h.of_error hresult

theorem bind_ensures {step : Reckoner σ α} {next : α → Reckoner σ β}
    {good' : β → Ledger σ → Prop} {failed' : Ledger σ → Prop}
    (hstep : Ensures step start good failed) (hfailed : ∀ ledger, failed ledger → failed' ledger)
    (hnext : ∀ a ledger, good a ledger → Ensures (next a) ledger good' failed') :
    Ensures (step >>= next) start good' failed' := by
  unfold Ensures
  simp only [bind, EStateM.bind]
  cases hresult : step start with
  | ok a ledger => exact hnext a ledger (hstep.of_ok hresult)
  | error error ledger => exact hfailed ledger (hstep.of_error hresult)

theorem atTable_ensures {step : Roller σ β} {next : β → Reckoner σ α}
    (herror : ∀ table, failed { start with table := table })
    (hnext : ∀ b table, step start.table = .ok b table →
      Ensures (next b) { start with table := table } good failed) :
    Ensures (atTable step >>= next) start good failed := by
  unfold Ensures atTable
  simp only [bind, EStateM.bind]
  cases hresult : step start.table with
  | ok b table => exact hnext b table hresult
  | error error table => exact herror table

theorem visit_ensures {limits : Limits} {next : Nat → Reckoner σ α}
    (herror : ∀ table, failed { start with table := table })
    (hnext : ∀ readings,
      Ensures (next start.table.nodes) (start.visited readings) good failed) :
    Ensures (atTable (Roller.visit limits) >>= next) start good failed := by
  refine atTable_ensures herror fun node table hvisit => ?_
  obtain ⟨rfl, readings, rfl⟩ := Roller.visit_eq_ok hvisit
  exact hnext readings

end Ensures

def Grows (step : Reckoner σ α) : Prop :=
  ∀ start, start.entries <+: (ledgerOf (step start)).entries

theorem Grows.bind {step : Reckoner σ α} {next : α → Reckoner σ β} (hstep : Grows step)
    (hnext : ∀ a, Grows (next a)) : Grows (step >>= next) := by
  intro start
  have hfirst := hstep start
  simp only [Bind.bind, EStateM.bind]
  generalize step start = result at hfirst ⊢
  cases result with
  | ok a between => exact hfirst.trans (hnext a between)
  | error error ledger => exact hfirst

theorem grows_atTable (step : Roller σ α) : Grows (atTable step) := by
  intro start
  unfold atTable
  cases step start.table with
  | ok a table => exact List.prefix_rfl
  | error error table => exact List.prefix_rfl

theorem grows_record (node : Nat) (expression : Expression) (exact : ExactValue) :
    Grows (record (σ := σ) node expression exact) :=
  fun start => List.prefix_append start.entries _

theorem Grows.recorded {step : Reckoner σ α} (h : Grows step) (node : Nat)
    (expression : Expression) (exact : α → ExactValue) :
    Grows (step >>= fun a => record node expression (exact a)) :=
  h.bind fun a => grows_record node expression (exact a)

variable [FaceSource σ]

theorem grows_reckonNodes (limits : Limits) (expression : Expression) :
    Grows (reckonNodes (σ := σ) limits expression) := by
  induction expression with
  | literal value => exact (grows_atTable _).bind fun node => grows_record node _ _
  | dice term =>
    refine (grows_atTable _).bind fun node => ?_
    exact (grows_atTable _).recorded node _ _
  | binary operator left right ihLeft ihRight =>
    refine (grows_atTable _).bind fun node => ihLeft.bind fun leftValue => ?_
    exact ihRight.recorded node _ _
  | group inner ih | negate inner ih =>
    exact (grows_atTable _).bind fun node => ih.recorded node _ _

/-- The nodes of an expression are recorded in post-order, as far as its reckoning gets. -/
theorem reckonNodes_listed (limits : Limits) (expression : Expression) (start : Ledger σ) :
    Ensures (reckonNodes limits expression) start
      (fun _ ledger => ledger.table.nodes = start.table.nodes + expression.size ∧
        ledger.listed = start.listed ++ expression.postorder start.table.nodes)
      fun ledger => ledger.listed <+: start.listed ++ expression.postorder start.table.nodes := by
  induction expression generalizing start with
  | literal value =>
    refine visit_ensures (fun table => List.prefix_append _ _) fun readings => ?_
    exact ⟨rfl, Ledger.listed_recorded _ _ _ _⟩
  | dice term =>
    refine visit_ensures (fun table => List.prefix_append _ _) fun readings => ?_
    refine atTable_ensures (fun table => List.prefix_append _ _) fun faces rolled hroll => ?_
    have hnodes : rolled.nodes = start.table.nodes + 1 :=
      congrArg Prod.fst (Roller.rollFaces_block hroll).1
    exact ⟨hnodes, Ledger.listed_recorded _ _ _ _⟩
  | binary operator left right ihLeft ihRight =>
    rw [Expression.postorder, Expression.size]
    refine visit_ensures (fun table => List.prefix_append _ _) fun readings => ?_
    refine bind_ensures (ihLeft _) (fun ledger hledger => hledger.trans (by simp)) ?_
    rintro leftValue between ⟨hbetween, hleft⟩
    rw [Ledger.nodes_visited] at hbetween hleft
    have hright := ihRight between
    rw [hbetween, hleft] at hright
    refine bind_ensures hright (fun ledger hledger => hledger.trans (by simp)) ?_
    rintro rightValue last ⟨hlast, hlisted⟩
    refine ⟨?_, ?_⟩
    · rw [Ledger.table_recorded, hlast]
      omega
    · rw [Ledger.listed_recorded, hlisted]
      simp
  | group inner ih | negate inner ih =>
    rw [Expression.postorder, Expression.size]
    refine visit_ensures (fun table => List.prefix_append _ _) fun readings => ?_
    refine bind_ensures (ih _) (fun ledger hledger => hledger.trans (by simp)) ?_
    rintro value between ⟨hnodes, hlisted⟩
    refine ⟨?_, ?_⟩
    · rw [Ledger.table_recorded, hnodes, Ledger.nodes_visited]
      omega
    · rw [Ledger.listed_recorded, hlisted]
      simp

end Reckoner

def Outcome.shown (outcome : Outcome) : UInt32 × UInt32 := (outcome.sides, outcome.value)

/-- What a source becomes by handing out faces for dice with the given sides, in that order. -/
inductive HandsOut {σ : Type} [FaceSource σ] (source : σ) : List (UInt32 × UInt32) → σ → Prop
  | start : HandsOut source [] source
  | next {dice : List (UInt32 × UInt32)} {state after : σ} {sides face : UInt32}
      (former : HandsOut source dice state)
      (handed : FaceSource.next sides state = .ok (face, after)) :
      HandsOut source (dice ++ [(sides, face)]) after

section Thrown

variable {σ : Type} [FaceSource σ]

/-- The source goes on to hand out the dice on the trail, in order. -/
def Invariant.handing (source : σ) : Invariant σ where
  Holds state trail := HandsOut source (trail.toList.map Outcome.shown) state
  thrown {state after trail node sides face cause} h hnext := by
    rw [Array.toList_push, List.map_append, List.map_singleton, Outcome.shown,
      Outcome.value_thrown, Outcome.sides_thrown]
    exact h.next hnext
  retired {state trail} die h := by
    rw [Array.toList_modify, ← List.filterMap_eq_map,
      filterMap_modify_retired (fun _ => rfl) trail.toList die, List.filterMap_eq_map]
    exact h

/-- The dice of the given nodes are thrown and no others: they lie on the trail node by node, and
the source has handed them out in this order. -/
structure Thrown (source : σ) (nodes : List (Nat × Expression)) (state : σ) (trail : Trail) :
    Prop where
  blocks : Blocks 0 (nodes.filterMap Expression.diceTerm?) trail.toList
  handed : HandsOut source (trail.toList.map Outcome.shown) state

namespace Thrown

variable {source state : σ} {nodes : List (Nat × Expression)} {trail : Trail}

theorem plain (h : Thrown source nodes state trail) {node : Nat × Expression}
    (hnode : Expression.diceTerm? node = none) : Thrown source (nodes ++ [node]) state trail := by
  refine ⟨?_, h.handed⟩
  rw [List.filterMap_append, List.filterMap_cons_none hnode, List.filterMap_nil, List.append_nil]
  exact h.blocks

theorem rolled {table after : Table σ} (h : Thrown source nodes table.source table.trail)
    {limits : Limits} {node : Nat} {term : DiceTerm} {faces : List UInt32}
    (hroll : Roller.rollFaces limits node term table = .ok faces after) :
    Thrown source (nodes ++ [(node, .dice term)]) after.source after.trail := by
  obtain ⟨-, block, htrail, hblock, -⟩ := Roller.rollFaces_block hroll
  have hhanded := ((Invariant.handing source).coupling limits).rollFaces node term hroll h.handed
  refine ⟨?_, hhanded⟩
  rw [htrail, List.filterMap_append, ← List.append_nil block]
  refine h.blocks.append (.cons ?_ .nil)
  rwa [Nat.zero_add, Array.length_toList]

end Thrown

end Thrown

namespace Ledger

variable {σ : Type} [FaceSource σ] {source : σ} {ledger : Ledger σ}

/-- When a node is recorded, the dice of the nodes up to it are thrown and no others. -/
def Dated (source : σ) (ledger : Ledger σ) : Prop :=
  ∀ former entry, former ++ [entry] <+: ledger.entries →
    Thrown source ((former ++ [entry]).map Reckoned.numbered) entry.source entry.trail

/-- Between two nodes, the dice of the nodes that are recorded are thrown and no others. -/
structure Settled (source : σ) (ledger : Ledger σ) : Prop where
  dated : ledger.Dated source
  thrown : Thrown source ledger.listed ledger.table.source ledger.table.trail

theorem Settled.visited (h : ledger.Settled source) (readings : Nat) :
    (ledger.visited readings).Settled source := ⟨h.dated, h.thrown⟩

theorem settled_recorded (hdated : ledger.Dated source) {node : Nat} {expression : Expression}
    (hthrown : Thrown source (ledger.listed ++ [(node, expression)]) ledger.table.source
      ledger.table.trail) (exact : ExactValue) :
    (ledger.recorded node expression exact).Settled source := by
  refine ⟨fun former entry hrecorded => ?_, ?_⟩
  · rcases List.prefix_concat_iff.mp hrecorded with hlast | hformer
    · obtain ⟨rfl, hentry⟩ := List.append_inj' hlast rfl
      obtain rfl := List.singleton_inj.mp hentry
      rw [List.map_append]
      exact hthrown
    · exact hdated former entry hformer
  · rw [listed_recorded]
    exact hthrown

end Ledger

namespace Reckoner

variable {σ : Type} [FaceSource σ] {source : σ}

/-- A reckoning throws the dice of the nodes in the order in which it records them. -/
theorem reckonNodes_settled (limits : Limits) (expression : Expression) {start : Ledger σ}
    (h : start.Settled source) :
    Ensures (reckonNodes limits expression) start (fun _ ledger => ledger.Settled source)
      (Ledger.Dated source) := by
  induction expression generalizing start with
  | literal value =>
    refine visit_ensures (fun table => h.dated) fun readings => ?_
    have hvisited := h.visited readings
    exact Ledger.settled_recorded hvisited.dated (hvisited.thrown.plain rfl) _
  | dice term =>
    refine visit_ensures (fun table => h.dated) fun readings => ?_
    have hvisited := h.visited readings
    refine atTable_ensures (fun table => h.dated) fun faces rolled hroll => ?_
    have hdated : Ledger.Dated source { start with table := rolled } := h.dated
    exact Ledger.settled_recorded hdated (hvisited.thrown.rolled hroll) _
  | binary operator left right ihLeft ihRight =>
    refine visit_ensures (fun table => h.dated) fun readings => ?_
    refine bind_ensures (ihLeft (h.visited readings)) (fun _ hdated => hdated) ?_
    intro leftValue between hbetween
    refine bind_ensures (ihRight hbetween) (fun _ hdated => hdated) fun rightValue last hlast => ?_
    exact Ledger.settled_recorded hlast.dated (hlast.thrown.plain rfl) _
  | group inner ih | negate inner ih =>
    refine visit_ensures (fun table => h.dated) fun readings => ?_
    refine bind_ensures (ih (h.visited readings)) (fun _ hdated => hdated) ?_
    intro value between hbetween
    exact Ledger.settled_recorded hbetween.dated (hbetween.thrown.plain rfl) _

end Reckoner

namespace Expression

variable {σ : Type} [FaceSource σ] {limits : Limits} {source : σ}

theorem reckon_ensures {expression : Expression} {good : Int → Ledger σ → Prop}
    {failed : Ledger σ → Prop}
    (hnodes : Reckoner.Ensures (Reckoner.reckonNodes limits expression) ⟨.fresh source, []⟩ good
      failed)
    (hfailed : failed ⟨.fresh source, []⟩) :
    Reckoner.Ensures (Reckoner.reckonExpression limits expression) ⟨.fresh source, []⟩ good
      failed := by
  unfold Reckoner.reckonExpression
  split
  · exact hfailed
  · exact hnodes

theorem reckon_listed (limits : Limits) (expression : Expression) (source : σ) :
    Reckoner.Ensures (Reckoner.reckonExpression limits expression) ⟨.fresh source, []⟩
      (fun _ ledger => ledger.listed = expression.postorder 0)
      fun ledger => ledger.listed <+: expression.postorder 0 := by
  have hnodes := Reckoner.reckonNodes_listed limits expression ⟨.fresh source, []⟩
  refine reckon_ensures (hnodes.imp (fun _ _ h => h.2) fun _ h => h) ?_
  exact List.nil_prefix

theorem reckon_dated (limits : Limits) (expression : Expression) (source : σ) :
    (Reckoner.ledgerOf (expression.reckon limits source)).Dated source := by
  have hfresh : Ledger.Settled source ⟨.fresh source, []⟩ := ⟨by simp [Ledger.Dated], .nil, .start⟩
  have hnodes := Reckoner.reckonNodes_settled limits expression hfresh
  exact (reckon_ensures (hnodes.imp (fun _ _ h => h.dated) fun _ h => h) hfresh.dated).ledgerOf

end Expression

end DiceNotation
