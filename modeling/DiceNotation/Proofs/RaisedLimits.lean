import DiceNotation.Faces.Script
import DiceNotation.Proofs.Coupling
import DiceNotation.Proofs.RollSteps

/-!
# Raising the limits

An evaluation that no limit stops goes the same way within wider limits: it has the same outcome and
draws the same faces.
-/
namespace DiceNotation

/-- The failures that wider limits can do away with. -/
def RollError.OfLimit (error : RollError) : Prop :=
  error.kind = .budgetExceeded ∨ error.kind = .infiniteReroll

/-- No limit gets narrower, and the time is not limited. -/
structure Limits.RaisedTo (limits raised : Limits) : Prop where
  nodes : limits.nodes ≤ raised.nodes
  dice : limits.dice ≤ raised.dice
  rerollDepth : limits.rerollDepth ≤ raised.rerollDepth
  untimed : limits.time = none
  untimed' : raised.time = none

namespace Roller

variable {σ α β : Type} {limits raised : Limits}

/-- The second step comes to the same as the first, or a limit stops the first. -/
inductive Settled (image : α → β) :
    EStateM.Result RollError (Table σ) α → EStateM.Result RollError (Table σ) β → Prop
  | ok (a : α) (after : Table σ) : Settled image (.ok a after) (.ok (image a) after)
  | error (error : RollError) (after : Table σ) :
      Settled image (.error error after) (.error error after)
  | stopped {error : RollError} (limit : error.OfLimit) (after : Table σ)
      (second : EStateM.Result RollError (Table σ) β) : Settled image (.error error after) second

def Settles (image : α → β) (first : Roller σ α) (second : Roller σ β) : Prop :=
  ∀ table, Settled image (first table) (second table)

theorem settles_refl (step : Roller σ α) : Settles id step step := by
  intro table
  cases step table with
  | ok a after => exact .ok a after
  | error error after => exact .error error after

theorem bind_settles {γ δ : Type} {image : α → β} {image' : γ → δ} {first : Roller σ α}
    {second : Roller σ β} {next : α → Roller σ γ} {next' : β → Roller σ δ}
    (hstart : Settles image first second)
    (hrest : ∀ a, Settles image' (next a) (next' (image a))) :
    Settles image' (first >>= next) (second >>= next') := by
  intro table
  have hfirst := hstart table
  simp only [bind, EStateM.bind]
  generalize first table = result, second table = result' at hfirst ⊢
  cases hfirst with
  | ok a between => exact hrest a between
  | error error between => exact .error error between
  | stopped limit between second => exact .stopped limit between _

theorem throwDie_settles [FaceSource σ] (hraised : limits.RaisedTo raised) (node : Nat)
    (sides : UInt32) (cause : Cause) :
    Settles id (throwDie limits node sides cause : Roller σ Nat)
      (throwDie raised node sides cause) := by
  have hdice := hraised.dice
  intro table
  rw [throwDie_of_none hraised.untimed, throwDie_of_none hraised.untimed']
  by_cases hfull : limits.dice ≤ table.trail.size
  · rw [if_pos hfull]
    exact .stopped (.inl rfl) table _
  · rw [if_neg hfull, if_neg (by omega)]
    exact settles_refl _ table

theorem rollTerm_settles [FaceSource σ] (hraised : limits.RaisedTo raised) {term : DiceTerm}
    (large : limits.dice < term.count.toNat ∨ raised.dice < term.count.toNat) (node : Nat) :
    Settles id (rollTerm limits node term : Roller σ Int64) (rollTerm raised node term) := by
  have hdice := hraised.dice
  have hlarge : limits.dice < term.count.toNat := by omega
  rw [rollTerm_of_large hlarge]
  exact fun table => .stopped (.inl rfl) table _

def raise [FaceSource σ] (hraised : limits.RaisedTo raised) : Coupling σ σ limits raised where
  nodes := 0
  dice := 0
  Alike := Settles
  pure a := .ok a
  throw error := .error error
  bind := bind_settles
  visit := by
    have hvisit : (visit raised : Roller σ Nat) = visit limits := by
      rw [visit, visit, checkTime_of_none hraised.untimed, checkTime_of_none hraised.untimed']
    rw [hvisit]
    exact settles_refl _
  enter node value := settles_refl _
  remark said := by
    rw [Remark.further_zero]
    exact settles_refl _
  nextPlace := settles_refl _
  throwDie node sides cause := by
    rw [Cause.further_zero]
    exact throwDie_settles hraised node sides cause
  faceOf die := settles_refl _
  retire die := settles_refl _
  depthLe := hraised.rerollDepth
  endless _ kind second := fun table => .stopped (.inr kind) table (second table)
  rollLarge node term large := rollTerm_settles hraised large node

end Roller

variable {σ : Type} [FaceSource σ] {limits raised : Limits} {source after : σ}

/-- A roll that no limit stops comes to the same within wider limits, failure or not, and leaves the
source the same. -/
theorem Expression.roll_of_raisedTo (hraised : limits.RaisedTo raised) {expression : Expression}
    {result : Except RollError Evaluation}
    (h : expression.roll limits source = (result, after))
    (hsettled : ∀ error, result = .error error →
      error.kind ≠ .budgetExceeded ∧ error.kind ≠ .infiniteReroll) :
    expression.roll raised source = (result, after) := by
  by_cases hnodes : expression.nodeCount ≤ limits.nodes
  · have hroll := (Roller.raise hraised).rollNodes expression (.fresh source)
    rw [roll_eq_outcome hnodes] at h
    rw [roll_eq_outcome (Nat.le_trans hnodes hraised.nodes)]
    generalize Roller.rollNodes limits expression (.fresh source) = narrow at hroll h
    generalize Roller.rollNodes raised expression (.fresh source) = wide at hroll ⊢
    cases hroll with
    | ok value table => exact h
    | error error table => exact h
    | @stopped error limit table =>
      cases h
      have hsettled := hsettled error rfl
      exact absurd limit (not_or.mpr hsettled)
  · rw [roll_of_lt_nodeCount (Nat.lt_of_not_le hnodes)] at h
    cases h
    exact absurd rfl (hsettled _ rfl).1

/-- One die is rerolled as often as is allowed, another explodes, and no die is left to throw. -/
theorem Expression.roll_of_raisedTo_of_exhausted :
    Limits.RaisedTo ⟨2, 5, 3, none⟩ {} ∧
    (binary .add (dice ⟨2, 6, [.reroll none, .explode none]⟩) (literal 1)).roll ⟨2, 5, 3, none⟩
        (Script.ofList [1, 6, 1, 3, 2]) =
      (.ok ⟨12, #[⟨1, 6, 1, false, none, none⟩, ⟨1, 6, 6, true, none, none⟩,
        ⟨1, 6, 1, false, some 0, none⟩, ⟨1, 6, 3, true, some 2, none⟩,
        ⟨1, 6, 2, true, none, some 1⟩], ⟨[(0, 12), (1, 11), (2, 1)], by decide⟩⟩,
        ⟨#[1, 6, 1, 3, 2], 5⟩) ∧
    (binary .add (dice ⟨2, 6, [.reroll none, .explode none]⟩) (literal 1)).roll {}
        (Script.ofList [1, 6, 1, 3, 2]) =
      (.ok ⟨12, #[⟨1, 6, 1, false, none, none⟩, ⟨1, 6, 6, true, none, none⟩,
        ⟨1, 6, 1, false, some 0, none⟩, ⟨1, 6, 3, true, some 2, none⟩,
        ⟨1, 6, 2, true, none, some 1⟩], ⟨[(0, 12), (1, 11), (2, 1)], by decide⟩⟩,
        ⟨#[1, 6, 1, 3, 2], 5⟩) := by
  have hraised : Limits.RaisedTo ⟨2, 5, 3, none⟩ {} :=
    ⟨by decide, by decide, by decide, rfl, rfl⟩
  have h : (binary .add (dice ⟨2, 6, [.reroll none, .explode none]⟩) (literal 1)).roll
      ⟨2, 5, 3, none⟩ (Script.ofList [1, 6, 1, 3, 2]) =
      (.ok ⟨12, #[⟨1, 6, 1, false, none, none⟩, ⟨1, 6, 6, true, none, none⟩,
        ⟨1, 6, 1, false, some 0, none⟩, ⟨1, 6, 3, true, some 2, none⟩,
        ⟨1, 6, 2, true, none, some 1⟩], ⟨[(0, 12), (1, 11), (2, 1)], by decide⟩⟩,
        ⟨#[1, 6, 1, 3, 2], 5⟩) := by
    decide +kernel
  exact ⟨hraised, h, roll_of_raisedTo hraised h nofun⟩

end DiceNotation
