import DiceNotation.Condition

/-!
# Faces that pass a condition

A condition is judged by the lowest and the highest face of a die alone. On a die with sides the
judgement is exact: it finds the condition satisfiable just if one of the faces passes. A die without
sides has no face, but all comparisons except `=` are judged as if it had one.
-/
namespace DiceNotation

/-- The face that a die without sides is taken to have: the lowest face of a die where small faces
pass, and as many as it has sides where large ones do. -/
def Comparison.supposed? : Comparison → Option UInt32
  | equal => none
  | notEqual => some 1
  | less => some 1
  | greater => some 0
  | atMost => some 1
  | atLeast => some 0

namespace Condition

/-- One of the faces of the die passes. -/
def Passable (condition : Condition) (sides : UInt32) : Prop :=
  ∃ face : UInt32, 1 ≤ face ∧ face ≤ sides ∧ condition.accepts face = true

theorem satisfiable_of_accepts {condition : Condition} {face sides : UInt32} (hone : 1 ≤ face)
    (hle : face ≤ sides) (h : condition.accepts face = true) :
    condition.satisfiable sides = true := by
  rw [UInt32.le_iff_toNat_le] at hone hle
  have hone : 1 ≤ face.toNat := hone
  obtain ⟨comparison, value⟩ := condition
  cases comparison
  all_goals
    simp only [accepts, Comparison.holds, satisfiable, decide_eq_true_eq] at h ⊢
    omega

theorem passable_of_satisfiable {condition : Condition} {sides : UInt32} (hsides : 1 ≤ sides)
    (h : condition.satisfiable sides = true) : condition.Passable sides := by
  have hlowest : (1 : UInt32) ≤ 1 := UInt32.le_refl 1
  have hhighest : sides ≤ sides := UInt32.le_refl sides
  have hpos : 1 ≤ sides.toNat := UInt32.le_iff_toNat_le.mp hsides
  obtain ⟨comparison, value⟩ := condition
  cases comparison with
  | equal =>
    simp only [satisfiable, decide_eq_true_eq] at h
    have hlt := sides.toNat_lt
    have hface : (UInt32.ofNat value.toInt.toNat).toNat = value.toInt.toNat :=
      UInt32.toNat_ofNat_of_lt (by simp only [UInt32.size]; omega)
    refine ⟨UInt32.ofNat value.toInt.toNat, ?_, ?_, ?_⟩
    · rw [UInt32.le_iff_toNat_le, hface]
      change 1 ≤ value.toInt.toNat
      omega
    · rw [UInt32.le_iff_toNat_le, hface]
      omega
    · simp only [accepts, Comparison.holds, hface, decide_eq_true_eq]
      omega
  | notEqual =>
    by_cases hvalue : value.toInt = 1
    · refine ⟨sides, hsides, hhighest, ?_⟩
      simp only [satisfiable, accepts, Comparison.holds, decide_eq_true_eq] at h ⊢
      omega
    · refine ⟨1, hlowest, hsides, ?_⟩
      simpa [accepts, Comparison.holds] using Ne.symm hvalue
  | less => exact ⟨1, hlowest, hsides, h⟩
  | greater => exact ⟨sides, hsides, hhighest, h⟩
  | atMost => exact ⟨1, hlowest, hsides, h⟩
  | atLeast => exact ⟨sides, hsides, hhighest, h⟩

theorem satisfiable_zero_iff (condition : Condition) :
    condition.satisfiable 0 = true ↔
      ∃ face, condition.comparison.supposed? = some face ∧ condition.accepts face = true := by
  obtain ⟨comparison, value⟩ := condition
  cases comparison <;>
    simp [satisfiable, accepts, Comparison.supposed?, Comparison.holds] <;> omega

theorem not_passable_zero (condition : Condition) : ¬ condition.Passable 0 := by
  rintro ⟨face, hone, hzero, -⟩
  exact absurd (UInt32.le_trans hone hzero) (by decide)

/-- A condition is found satisfiable if a face of the die passes, and for no other reason but that a
die without sides is taken to have a face. -/
theorem satisfiable_iff_passable (condition : Condition) (sides : UInt32) :
    condition.satisfiable sides = true ↔
      condition.Passable sides ∨ sides = 0 ∧
        ∃ face, condition.comparison.supposed? = some face ∧ condition.accepts face = true := by
  by_cases hsides : sides = 0
  · subst hsides
    simp only [satisfiable_zero_iff, condition.not_passable_zero, false_or, true_and]
  · have hpos : 1 ≤ sides := UInt32.le_iff_toNat_le.mpr
      (Nat.one_le_iff_ne_zero.mpr fun hzero => hsides (UInt32.toNat_inj.mp hzero))
    simp only [hsides, false_and, or_false]
    constructor
    · exact passable_of_satisfiable hpos
    · rintro ⟨face, hone, hle, haccepts⟩
      exact satisfiable_of_accepts hone hle haccepts

/-- No face of a die without sides is less than 5, but `<5` is found satisfiable on it. -/
theorem satisfiable_inexact_of_no_sides :
    ¬ ∀ (condition : Condition) (sides : UInt32),
      condition.satisfiable sides = true ↔ condition.Passable sides := by
  intro h
  have hsatisfiable : (⟨.less, 5⟩ : Condition).satisfiable 0 = true := by decide
  exact not_passable_zero _ ((h _ _).mp hsatisfiable)

end Condition

end DiceNotation
