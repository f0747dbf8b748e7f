import DiceNotation.Proofs.Coupling
import DiceNotation.Proofs.RollSteps

/-!
# Faces that are counted

A source that counts the faces it hands out gives the same rolls, and hands out no more faces than
the dice budget allows.
-/
namespace DiceNotation

/-- A source with the number of faces that it has handed out. -/
structure Counted (σ : Type) where
  source : σ
  handed : Nat
  deriving DecidableEq, Repr

namespace Counted

variable {σ : Type}

def start (source : σ) : Counted σ := ⟨source, 0⟩

instance [FaceSource σ] : FaceSource (Counted σ) where
  draw sides counted :=
    let (face, after) := FaceSource.draw sides counted.source
    (face, ⟨after, counted.handed + 1⟩)
  answer sides counted :=
    match FaceSource.answer sides counted.source with
    | (.ok face, after) => (.ok face, ⟨after, counted.handed + 1⟩)
    | (.error error, after) => (.error error, ⟨after, counted.handed⟩)

variable [FaceSource σ] {sides face : UInt32} {counted after : Counted σ} {source : σ}
  {error : RollError}

theorem answer_of_ok (h : FaceSource.answer sides counted.source = (.ok face, source)) :
    FaceSource.answer sides counted = (.ok face, ⟨source, counted.handed + 1⟩) := by
  simp only [FaceSource.answer]
  rw [h]

theorem answer_of_error (h : FaceSource.answer sides counted.source = (.error error, source)) :
    FaceSource.answer sides counted = (.error error, ⟨source, counted.handed⟩) := by
  simp only [FaceSource.answer]
  rw [h]

theorem next_source (h : FaceSource.next sides counted = .ok (face, after)) :
    FaceSource.next sides counted.source = .ok (face, after.source) := by
  rw [FaceSource.next_eq_ok_iff] at h ⊢
  rcases hanswer : FaceSource.answer sides counted.source with ⟨error | shown, source⟩
  · rw [answer_of_error hanswer] at h
    cases h
  · rw [answer_of_ok hanswer] at h
    cases h
    rfl

end Counted

/-- The table with a source that has handed out the dice on the trail. -/
def Table.counted {σ : Type} (table : Table σ) : Table (Counted σ) :=
  ⟨⟨table.source, table.trail.size⟩, table.trail, table.nodes, table.subTotals, table.readings,
    table.remarks⟩

@[simp] theorem Table.trail_counted {σ : Type} (table : Table σ) :
    table.counted.trail = table.trail := rfl

@[simp] theorem Table.readings_counted {σ : Type} (table : Table σ) :
    table.counted.readings = table.readings := rfl

namespace Roller

variable {σ α β : Type} {limits : Limits}

/-- A result, and the same one with a source whose faces are counted, within the budget. -/
inductive Counts (limits : Limits) (image : α → β) :
    EStateM.Result RollError (Table σ) α → EStateM.Result RollError (Table (Counted σ)) β → Prop
  | ok (a : α) {after : Table σ} (budget : after.trail.size ≤ limits.dice) :
      Counts limits image (.ok a after) (.ok (image a) after.counted)
  | error (error : RollError) {after : Table σ} (budget : after.trail.size ≤ limits.dice) :
      Counts limits image (.error error after) (.error error after.counted)

/-- Counting the faces leaves the step as it is, and it keeps to the budget. -/
def CountedBy (limits : Limits) (image : α → β) (step : Roller σ α)
    (step' : Roller (Counted σ) β) : Prop :=
  ∀ table, table.trail.size ≤ limits.dice → Counts limits image (step table) (step' table.counted)

theorem bind_countedBy {γ δ : Type} {image : α → β} {image' : γ → δ} {step : Roller σ α}
    {step' : Roller (Counted σ) β} {next : α → Roller σ γ} {next' : β → Roller (Counted σ) δ}
    (hstep : CountedBy limits image step step')
    (hnext : ∀ a, CountedBy limits image' (next a) (next' (image a))) :
    CountedBy limits image' (step >>= next) (step' >>= next') := by
  intro table hbudget
  have hfirst := hstep table hbudget
  simp only [bind, EStateM.bind]
  generalize step table = result, step' table.counted = result' at hfirst ⊢
  cases hfirst with
  | ok a hbetween => exact hnext a _ hbetween
  | error error hbetween => exact .error error hbetween

theorem checkTime_countedBy :
    CountedBy (σ := σ) limits id (checkTime limits) (checkTime limits) := by
  intro table hbudget
  rw [checkTime_apply, checkTime_apply]
  cases limits.time with
  | none => exact .ok () hbudget
  | some budget =>
    by_cases hlate : budget.allowed.nanoseconds ≤ (budget.elapsed table.readings).nanoseconds
    · simp only [Table.readings_counted, hlate, if_true]
      exact .error (.outOfTime budget.allowed) hbudget
    · simp only [Table.readings_counted, hlate, if_false]
      exact .ok () hbudget

theorem visit_countedBy : CountedBy (σ := σ) limits (· + 0) (visit limits) (visit limits) :=
  bind_countedBy checkTime_countedBy fun _ table hbudget => .ok table.nodes hbudget

theorem faceOf_countedBy (die : Nat) :
    CountedBy (σ := σ) limits id (faceOf die) (faceOf die) := by
  intro table hbudget
  rw [faceOf_apply, faceOf_apply, Table.trail_counted]
  cases table.trail[die]? with
  | none => exact .error _ hbudget
  | some outcome => exact .ok outcome.value hbudget

theorem retire_countedBy (die : Nat) :
    CountedBy (σ := σ) limits id (retire die) (retire die) := by
  intro table hbudget
  rw [retire_apply, retire_apply, Table.trail_counted]
  by_cases hdie : die < table.trail.size
  · have hbudget' : (table.trail.modify die Outcome.retired).size ≤ limits.dice := by
      rwa [Array.size_modify]
    have hretired : Table.counted { table with trail := table.trail.modify die .retired } =
        { table.counted with trail := table.trail.modify die .retired } := by
      simp only [Table.counted, Array.size_modify]
    rw [if_pos hdie, if_pos hdie]
    exact hretired ▸ .ok () hbudget'
  · rw [if_neg hdie, if_neg hdie]
    exact .error _ hbudget

variable [FaceSource σ]

theorem layDie_counts {table : Table σ} (hroom : table.trail.size < limits.dice) (node : Nat)
    (sides : UInt32) (cause : Cause) :
    Counts limits id (layDie node sides cause table) (layDie node sides cause table.counted) := by
  rcases hface : FaceSource.answer sides table.source with ⟨error | face, source⟩
  · rw [layDie_of_refused hface, layDie_of_refused (Counted.answer_of_error hface)]
    exact .error error (Nat.le_of_lt hroom)
  · have hface' : FaceSource.answer sides table.counted.source =
        (.ok face, ⟨source, table.trail.size + 1⟩) := Counted.answer_of_ok hface
    rw [layDie_of_next (FaceSource.next_eq_ok_iff.mpr hface),
      layDie_of_next (FaceSource.next_eq_ok_iff.mpr hface')]
    have hbudget : (table.trail.push (.thrown node sides face cause)).size ≤ limits.dice := by
      rw [Array.size_push]
      exact hroom
    have hlaid : Table.counted
          { table with
            source := source, trail := table.trail.push (.thrown node sides face cause) } =
        { table.counted with
          source := ⟨source, table.trail.size + 1⟩
          trail := table.trail.push (.thrown node sides face cause) } := by
      simp only [Table.counted, Array.size_push]
    exact hlaid ▸ .ok table.trail.size hbudget

theorem throwDie_countedBy (node : Nat) (sides : UInt32) (cause : Cause) :
    CountedBy (σ := σ) limits id (throwDie limits node sides cause)
      (throwDie limits node sides cause) := by
  intro table hbudget
  rw [throwDie_apply, throwDie_apply, Table.trail_counted]
  by_cases hfull : limits.dice ≤ table.trail.size
  · rw [if_pos hfull, if_pos hfull]
    exact .error (.tooManyDice limits.dice) hbudget
  · rw [if_neg hfull, if_neg hfull]
    -- looking at the time lays down no die, so there is still room for one
    have htime := checkTime_countedBy (σ := σ) table hbudget
    simp only [bind, EStateM.bind]
    cases hcheck : checkTime limits table with
    | ok _ between =>
      obtain ⟨readings, rfl⟩ := checkTime_eq_ok hcheck
      rw [hcheck] at htime
      generalize checkTime limits table.counted = result at htime ⊢
      cases htime
      refine layDie_counts ?_ node sides cause
      exact Nat.lt_of_not_le hfull
    | error error between =>
      rw [hcheck] at htime
      generalize checkTime limits table.counted = result at htime ⊢
      cases htime
      exact .error error ‹_›

def counting : Coupling σ (Counted σ) limits limits where
  nodes := 0
  dice := 0
  Alike := CountedBy limits
  pure a := fun _ hbudget => .ok a hbudget
  throw error := fun _ hbudget => .error error hbudget
  bind := bind_countedBy
  visit := visit_countedBy
  enter node value := fun _ hbudget => .ok value hbudget
  remark said := by
    rw [Remark.further_zero]
    exact fun _ hbudget => .ok () hbudget
  nextPlace := fun table hbudget => .ok table.trail.size hbudget
  throwDie node sides cause := by
    rw [Cause.further_zero]
    exact throwDie_countedBy node sides cause
  faceOf := faceOf_countedBy
  retire := retire_countedBy
  depthLe := .refl _
  endless longer := absurd longer (Nat.lt_irrefl _)
  rollLarge node term large := by
    have hlarge := or_self_iff.mp large
    rw [rollTerm_of_large hlarge, rollTerm_of_large hlarge]
    exact fun _ hbudget => .error _ hbudget

end Roller

variable {σ : Type} [FaceSource σ]

/-- Counting the faces does not change a roll. There are never more than the dice budget allows,
and as many as dice on the trail of a roll that succeeds. -/
theorem Expression.roll_start (limits : Limits) (expression : Expression) (source : σ) :
    ∃ handed ≤ limits.dice,
      expression.roll limits (Counted.start source) =
        ((expression.roll limits source).1, ⟨(expression.roll limits source).2, handed⟩) ∧
      ∀ evaluation, (expression.roll limits source).1 = .ok evaluation →
        handed = evaluation.trail.size := by
  by_cases hnodes : expression.nodeCount ≤ limits.nodes
  · have hcounts := Roller.counting.rollNodes expression (.fresh source) (Nat.zero_le limits.dice)
    rw [roll_eq_outcome hnodes, roll_eq_outcome hnodes]
    change Roller.Counts limits id _
      (Roller.rollNodes limits expression (.fresh (Counted.start source))) at hcounts
    generalize Roller.rollNodes limits expression (.fresh source) = plain at hcounts ⊢
    generalize Roller.rollNodes limits expression (.fresh (Counted.start source)) = result
      at hcounts ⊢
    cases hcounts with
    | @ok value after hbudget =>
      refine ⟨after.trail.size, hbudget, rfl, fun evaluation h => ?_⟩
      cases h
      rfl
    | @error error after hbudget => exact ⟨after.trail.size, hbudget, rfl, nofun⟩
  · have hlarge := Nat.lt_of_not_le hnodes
    rw [roll_of_lt_nodeCount hlarge, roll_of_lt_nodeCount hlarge]
    exact ⟨0, Nat.zero_le _, rfl, nofun⟩

end DiceNotation
