import DiceNotation.Faces.Script
import DiceNotation.Proofs.CountedFaces
import DiceNotation.Proofs.TermRoll

/-!
# The dice budget

A roll that goes through without the dice budget comes to the same within it when the budget has
room for the dice on its trail, and is stopped by it otherwise.
-/
namespace DiceNotation

def Limits.withDice (limits : Limits) (dice : Nat) : Limits := { limits with dice }

@[simp] theorem Limits.dice_withDice (limits : Limits) (dice : Nat) :
    (limits.withDice dice).dice = dice := rfl

namespace Roller

variable {σ α β : Type} {limits : Limits}

/-- If the step goes through, it takes no die off the trail; the second one comes to the same when
that leaves no more dice than are allowed, and is stopped by the budget otherwise. -/
def Affords (dice : Nat) (image : α → β) (step : Roller σ α) (step' : Roller σ β) : Prop :=
  ∀ ⦃table after a⦄, step table = .ok a after →
    table.trail.size ≤ after.trail.size ∧
    (after.trail.size ≤ dice → step' table = .ok (image a) after) ∧
    (table.trail.size ≤ dice → dice < after.trail.size →
      ∃ error between, step' table = .error error between ∧ error.kind = .budgetExceeded)

theorem affords_of_size_eq {dice : Nat} {image : α → β} {step : Roller σ α} {step' : Roller σ β}
    (h : ∀ ⦃table after a⦄, step table = .ok a after →
      after.trail.size = table.trail.size ∧ step' table = .ok (image a) after) :
    Affords dice image step step' := by
  intro table after a hstep
  obtain ⟨hsize, hstep'⟩ := h hstep
  refine ⟨Nat.le_of_eq hsize.symm, fun _ => hstep', fun hbudget hshort => ?_⟩
  omega

theorem bind_affords {dice : Nat} {γ δ : Type} {image : α → β} {image' : γ → δ}
    {step : Roller σ α} {step' : Roller σ β} {next : α → Roller σ γ} {next' : β → Roller σ δ}
    (hstep : Affords dice image step step')
    (hnext : ∀ a, Affords dice image' (next a) (next' (image a))) :
    Affords dice image' (step >>= next) (step' >>= next') := by
  intro table after c h
  obtain ⟨a, between, hfirst, hrest⟩ := bind_eq_ok.mp h
  obtain ⟨hgrows, hfits, hstops⟩ := hstep hfirst
  obtain ⟨hgrows', hfits', hstops'⟩ := hnext a hrest
  refine ⟨Nat.le_trans hgrows hgrows', fun hafter => ?_, fun hbudget hshort => ?_⟩
  · have hfirst' := hfits (Nat.le_trans hgrows' hafter)
    exact bind_eq_ok.mpr ⟨image a, between, hfirst', hfits' hafter⟩
  · by_cases hbetween : between.trail.size ≤ dice
    · have hfirst' := hfits hbetween
      obtain ⟨error, last, herror, hkind⟩ := hstops' hbetween hshort
      exact ⟨error, last, bind_eq_error.mpr (.inr ⟨image a, between, hfirst', herror⟩), hkind⟩
    · obtain ⟨error, last, herror, hkind⟩ := hstops hbudget (Nat.lt_of_not_le hbetween)
      exact ⟨error, last, bind_eq_error.mpr (.inl herror), hkind⟩

variable [FaceSource σ]

theorem throwDie_affords (htime : limits.time = none) (bound dice : Nat) (node : Nat)
    (sides : UInt32) (cause : Cause) :
    Affords (σ := σ) dice id (throwDie (limits.withDice bound) node sides cause)
      (throwDie (limits.withDice dice) node sides cause) := by
  have htime' (budget : Nat) : (limits.withDice budget).time = none := htime
  intro table after die h
  rw [throwDie_of_none (htime' bound)] at h
  rw [throwDie_of_none (htime' dice), Limits.dice_withDice]
  split at h
  · cases h
  · obtain ⟨rfl, face, hface, hafter⟩ := layDie_eq_ok h
    have hsize : after.trail.size = table.trail.size + 1 := by
      rw [hafter, Array.size_push]
    refine ⟨by omega, fun hfits => ?_, fun _ hshort => ?_⟩
    · rw [if_neg (by omega)]
      exact h
    · rw [if_pos (by omega)]
      exact ⟨_, _, rfl, rfl⟩

theorem count_le_of_rollTerm {node : Nat} {term : DiceTerm} {table after : Table σ} {value : Int64}
    (h : rollTerm limits node term table = .ok value after) :
    table.trail.size + term.count.toNat ≤ after.trail.size := by
  obtain ⟨-, block, htrail, hblock, -⟩ := rollTerm_eq_ok h
  have hthrown := hblock.thrown
  have hsize : after.trail.size = table.trail.size + block.length := by
    rw [← Array.length_toList, htrail, List.length_append, Array.length_toList]
  omega

theorem rollTerm_affords {bound dice : Nat} {term : DiceTerm}
    (hlarge : bound < term.count.toNat ∨ dice < term.count.toNat) (node : Nat) :
    Affords (σ := σ) dice id (rollTerm (limits.withDice bound) node term)
      (rollTerm (limits.withDice dice) node term) := by
  intro table after value h
  have hcount := count_le_of_rollTerm h
  have hbound : ¬bound < term.count.toNat := by
    intro hlt
    rw [rollTerm_of_large hlt] at h
    cases h
  have hdice : dice < term.count.toNat := hlarge.resolve_left hbound
  refine ⟨by omega, fun hfits => by omega, fun _ _ => ?_⟩
  rw [rollTerm_of_large hdice]
  exact ⟨_, _, rfl, rfl⟩

def budgeting (htime : limits.time = none) (bound dice : Nat) :
    Coupling σ σ (limits.withDice bound) (limits.withDice dice) where
  nodes := 0
  dice := 0
  Alike := Affords dice
  pure a := by
    refine affords_of_size_eq fun table after b h => ?_
    obtain ⟨rfl, rfl⟩ := pure_eq_ok.mp h
    exact ⟨rfl, rfl⟩
  throw error := by
    intro table after a h
    cases h
  bind := bind_affords
  visit := by
    have htime' (budget : Nat) : (limits.withDice budget).time = none := htime
    refine affords_of_size_eq fun table after node h => ?_
    rw [visit_of_none (htime' bound)] at h
    rw [visit_of_none (htime' dice)]
    cases h
    exact ⟨rfl, rfl⟩
  enter node value := by
    refine affords_of_size_eq fun table after result h => ?_
    cases h
    exact ⟨rfl, rfl⟩
  remark said := by
    rw [Remark.further_zero]
    refine affords_of_size_eq fun table after _ h => ?_
    cases h
    exact ⟨rfl, rfl⟩
  nextPlace := by
    refine affords_of_size_eq fun table after place h => ?_
    cases h
    exact ⟨rfl, rfl⟩
  throwDie node sides cause := by
    rw [Cause.further_zero]
    exact throwDie_affords htime bound dice node sides cause
  faceOf die := by
    refine affords_of_size_eq fun table after face h => ?_
    obtain ⟨-, rfl⟩ := faceOf_eq_ok h
    exact ⟨rfl, h⟩
  retire die := by
    refine affords_of_size_eq fun table after _ h => ?_
    obtain ⟨-, rfl⟩ := retire_eq_ok h
    exact ⟨Array.size_modify .., h⟩
  depthLe := .refl _
  endless longer := absurd longer (Nat.lt_irrefl _)
  rollLarge node term large := rollTerm_affords large node

end Roller

variable {σ : Type} [FaceSource σ] {limits : Limits}

/-- What a roll that goes through under one dice budget comes to under another. -/
theorem Expression.roll_of_dice (htime : limits.time = none) {expression : Expression}
    {source after : σ} {evaluation : Evaluation} {bound : Nat}
    (h : expression.roll (limits.withDice bound) source = (.ok evaluation, after))
    (dice : Nat) :
    (evaluation.trail.size ≤ dice →
      expression.roll (limits.withDice dice) source = (.ok evaluation, after)) ∧
    (dice < evaluation.trail.size →
      ∃ error between, expression.roll (limits.withDice dice) source = (.error error, between) ∧
        error.kind = .budgetExceeded) := by
  have hnodes : expression.nodeCount ≤ (limits.withDice bound).nodes := nodeCount_le_of_roll h
  have hnodes' : expression.nodeCount ≤ (limits.withDice dice).nodes := hnodes
  rw [roll_eq_outcome hnodes] at h
  rw [roll_eq_outcome hnodes']
  obtain ⟨table, hroll, htrail, hsubTotals, rfl⟩ := Roller.outcome_eq_ok h
  obtain ⟨-, hfits, hstops⟩ := (Roller.budgeting htime bound dice).rollNodes expression hroll
  rw [htrail]
  constructor
  · intro hle
    rw [hfits hle, ← h, hroll]
    rfl
  · intro hlt
    obtain ⟨error, between, herror, hkind⟩ := hstops (Nat.zero_le _) hlt
    rw [herror]
    exact ⟨error, between.source, rfl, hkind⟩

/-- The source of a roll never hands out more faces than the dice budget allows, whatever they are;
and a roll that goes through under some budget hands out a face for each die on its trail, comes to
the same under every budget that has room for these dice, and is stopped by every other one. -/
theorem Expression.roll_within_dice (limits : Limits) (expression : Expression) (source : σ) :
    (∃ handed ≤ limits.dice, expression.roll limits (Counted.start source) =
      ((expression.roll limits source).1, ⟨(expression.roll limits source).2, handed⟩)) ∧
    (limits.time = none → ∀ bound evaluation after,
      expression.roll (limits.withDice bound) source = (.ok evaluation, after) →
        expression.roll (limits.withDice bound) (Counted.start source) =
            (.ok evaluation, ⟨after, evaluation.trail.size⟩) ∧
        ∀ dice,
          (evaluation.trail.size ≤ dice →
            expression.roll (limits.withDice dice) source = (.ok evaluation, after)) ∧
          (dice < evaluation.trail.size →
            ∃ error between,
              expression.roll (limits.withDice dice) source = (.error error, between) ∧
                error.kind = .budgetExceeded)) := by
  constructor
  · obtain ⟨handed, hbudget, hroll, -⟩ := roll_start limits expression source
    exact ⟨handed, hbudget, hroll⟩
  · intro htime bound evaluation after h
    obtain ⟨handed, -, hroll, hsize⟩ := roll_start (limits.withDice bound) expression source
    rw [h] at hroll hsize
    have hhanded : handed = evaluation.trail.size := hsize evaluation rfl
    rw [hhanded] at hroll
    exact ⟨hroll, roll_of_dice htime h⟩

/-- Two dice are thrown, one is rerolled twice and the other explodes: five dice are just enough. -/
theorem Expression.roll_within_dice_of_five :
    ({} : Limits).time = none ∧
    ∃ evaluation after, evaluation.trail.size = 5 ∧
      (dice ⟨2, 6, [.reroll none, .explode none]⟩).roll (Limits.withDice {} 100)
          (Script.ofList [1, 6, 1, 3, 2]) = (.ok evaluation, after) ∧
      (dice ⟨2, 6, [.reroll none, .explode none]⟩).roll (Limits.withDice {} 100)
          (Counted.start (Script.ofList [1, 6, 1, 3, 2])) = (.ok evaluation, ⟨after, 5⟩) ∧
      (dice ⟨2, 6, [.reroll none, .explode none]⟩).roll (Limits.withDice {} 5)
          (Script.ofList [1, 6, 1, 3, 2]) = (.ok evaluation, after) ∧
      ∃ error between,
        (dice ⟨2, 6, [.reroll none, .explode none]⟩).roll (Limits.withDice {} 4)
            (Script.ofList [1, 6, 1, 3, 2]) = (.error error, between) ∧
          error.kind = .budgetExceeded := by
  have h : (dice ⟨2, 6, [.reroll none, .explode none]⟩).roll (Limits.withDice {} 100)
      (Script.ofList [1, 6, 1, 3, 2]) =
      (.ok ⟨11, #[⟨0, 6, 1, false, none, none⟩, ⟨0, 6, 6, true, none, none⟩,
        ⟨0, 6, 1, false, some 0, none⟩, ⟨0, 6, 3, true, some 2, none⟩,
        ⟨0, 6, 2, true, none, some 1⟩], ⟨[(0, 11)], by decide⟩⟩, ⟨#[1, 6, 1, 3, 2], 5⟩) := by
    decide +kernel
  obtain ⟨hcounted, hdice⟩ := (roll_within_dice {} _ _).2 rfl 100 _ _ h
  exact ⟨rfl, _, _, rfl, h, hcounted, (hdice 5).1 (by decide), (hdice 4).2 (by decide)⟩

end DiceNotation
