import DiceNotation.Faces.Script
import DiceNotation.Proofs.Explained

/-!
# Sub-totals

Every node of a rolled expression has a sub-total, at its place in pre-order, that follows from the
sub-totals of its children or, for a dice term, from the dice on the trail that it keeps.
-/
namespace DiceNotation

def outcomesOf (node : Nat) (outcomes : List Outcome) : List Outcome :=
  outcomes.filter fun outcome => outcome.term = node

/-- The sub-total of a node is the one that its kind calls for. -/
def Accounted (subTotals : SubTotals) (outcomes : List Outcome) (node : Nat) : Expression → Prop
  | .literal value => subTotals.get? node = some value
  | .dice _ =>
    ∃ total, subTotals.get? node = some total ∧ total.toInt = keptTotal (outcomesOf node outcomes)
  | .binary operator left _ =>
    ∃ total leftTotal rightTotal, subTotals.get? node = some total ∧
      subTotals.get? (node + 1) = some leftTotal ∧
        subTotals.get? (node + 1 + left.size) = some rightTotal ∧
          operator.Yields leftTotal.toInt rightTotal.toInt total.toInt
  | .group _ => ∃ total, subTotals.get? node = some total ∧ subTotals.get? (node + 1) = some total
  | .negate _ =>
    ∃ total innerTotal, subTotals.get? node = some total ∧
      subTotals.get? (node + 1) = some innerTotal ∧ total.toInt = -innerTotal.toInt

variable {subTotals : SubTotals} {node start : Nat} {expression : Expression} {value : Int64}
  {outcomes : List Outcome}

theorem Accounted.congr {others : List Outcome} (h : Accounted subTotals outcomes node expression)
    (houtcomes : outcomesOf node outcomes = outcomesOf node others) :
    Accounted subTotals others node expression := by
  cases expression with
  | dice term =>
    obtain ⟨total, hnode, htotal⟩ := h
    exact ⟨total, hnode, houtcomes ▸ htotal⟩
  | _ => exact h

theorem outcomesOf_append (node : Nat) (outcomes added : List Outcome) :
    outcomesOf node (outcomes ++ added) = outcomesOf node outcomes ++ outcomesOf node added :=
  List.filter_append outcomes added

namespace Explained

theorem entered (h : Explained subTotals node start expression value outcomes) :
    subTotals.get? node = some value := by
  cases h <;> assumption

theorem isSome_get? (h : Explained subTotals node start expression value outcomes) {n : Nat}
    (hle : node ≤ n) (hlt : n < node + expression.size) : (subTotals.get? n).isSome := by
  induction h with
  | literal entered | dice entered _ _ =>
    rw [Expression.size] at hlt
    obtain rfl := Nat.le_antisymm hle (Nat.le_of_lt_succ hlt)
    rw [entered]
    rfl
  | @binary node _ _ left _ _ _ _ _ _ entered _ _ _ ihLeft ihRight =>
    rw [Expression.size] at hlt
    rcases Nat.eq_or_lt_of_le hle with rfl | hbelow
    · rw [entered]
      rfl
    · rcases Nat.lt_or_ge n (node + 1 + left.size) with hleft | hright
      · exact ihLeft hbelow hleft
      · exact ihRight hright (by omega)
  | group entered _ ih | negate entered _ _ ih =>
    rw [Expression.size] at hlt
    rcases Nat.eq_or_lt_of_le hle with rfl | hbelow
    · rw [entered]
      rfl
    · exact ih hbelow (by omega)

theorem term_bounds (h : Explained subTotals node start expression value outcomes)
    {outcome : Outcome} (houtcome : outcome ∈ outcomes) :
    node ≤ outcome.term ∧ outcome.term < node + expression.size := by
  induction h with
  | literal => cases houtcome
  | dice _ block _ =>
    obtain ⟨j, hj⟩ := List.mem_iff_getElem?.mp houtcome
    rw [(block.placed j outcome hj).term_eq, Expression.size]
    omega
  | binary _ _ _ _ ihLeft ihRight =>
    rw [Expression.size]
    rcases List.mem_append.mp houtcome with hleft | hright
    · have := ihLeft hleft
      omega
    · have := ihRight hright
      omega
  | group _ _ ih | negate _ _ _ ih =>
    have := ih houtcome
    rw [Expression.size]
    omega

theorem outcomesOf_eq_nil (h : Explained subTotals node start expression value outcomes) {n : Nat}
    (hn : n < node ∨ node + expression.size ≤ n) : outcomesOf n outcomes = [] := by
  refine List.filter_eq_nil_iff.mpr fun outcome houtcome hterm => ?_
  have := h.term_bounds houtcome
  rw [decide_eq_true_eq] at hterm
  omega

end Explained

namespace Explained

theorem accounted (h : Explained subTotals node start expression value outcomes) {n : Nat}
    {sub : Expression} (hsub : (n, sub) ∈ expression.numbered node) :
    Accounted subTotals outcomes n sub := by
  induction h with
  | literal entered =>
    cases List.mem_singleton.mp hsub
    exact entered
  | @dice _ _ _ value outcomes entered block total =>
    cases List.mem_singleton.mp hsub
    have hall : outcomesOf n outcomes = outcomes := by
      refine List.filter_eq_self.mpr fun outcome houtcome => decide_eq_true ?_
      obtain ⟨j, hj⟩ := List.mem_iff_getElem?.mp houtcome
      exact (block.placed j outcome hj).term_eq
    exact ⟨value, entered, by rw [total, hall]⟩
  | binary entered hleft hright yields ihLeft ihRight =>
    rw [Expression.numbered, List.mem_cons, List.mem_append] at hsub
    rcases hsub with heq | hsub | hsub
    · cases heq
      exact ⟨_, _, _, entered, hleft.entered, hright.entered, yields⟩
    · have hn := Expression.bounds_of_mem_numbered hsub
      refine (ihLeft hsub).congr ?_
      rw [outcomesOf_append, hright.outcomesOf_eq_nil (.inl hn.2), List.append_nil]
    · have hn := Expression.bounds_of_mem_numbered hsub
      refine (ihRight hsub).congr ?_
      rw [outcomesOf_append, hleft.outcomesOf_eq_nil (.inr hn.1), List.nil_append]
  | group entered hinner ih =>
    rw [Expression.numbered, List.mem_cons] at hsub
    rcases hsub with heq | hsub
    · cases heq
      exact ⟨_, entered, hinner.entered⟩
    · exact ih hsub
  | negate entered hinner negated ih =>
    rw [Expression.numbered, List.mem_cons] at hsub
    rcases hsub with heq | hsub
    · cases heq
      exact ⟨_, _, entered, hinner.entered, negated⟩
    · exact ih hsub

end Explained

variable {σ : Type} [FaceSource σ] {limits : Limits} {source after : σ}

/-- The total of a roll, accounted for: the nodes in pre-order are the ones with sub-totals, the
first of which is the total, and every sub-total is exact. -/
theorem Expression.roll_subTotals {evaluation : Evaluation}
    (h : expression.roll limits source = (.ok evaluation, after)) :
    (∀ node, (evaluation.subTotal? node).isSome ↔ node < expression.nodeCount) ∧
    evaluation.subTotal? 0 = some evaluation.total ∧
    ∀ node sub, (node, sub) ∈ expression.numbered 0 →
      Accounted evaluation.subTotals evaluation.trail.toList node sub := by
  obtain ⟨hexplained, hnone⟩ := expression.roll_explained h
  refine ⟨fun node => ?_, hexplained.entered, fun node sub hsub => hexplained.accounted hsub⟩
  rw [expression.nodeCount_eq_size]
  constructor
  · intro hsome
    refine Nat.lt_of_not_le fun hle => ?_
    rw [hnone node hle] at hsome
    cases hsome
  · intro hlt
    exact hexplained.isSome_get? (Nat.zero_le node) (by omega)

/-- The quotient of a term, one die of which is replaced, and a negated literal. -/
theorem Expression.roll_subTotals_of_quotient :
    (Expression.binary .div (.dice ⟨2, 6, [.reroll none]⟩) (.negate (.literal 2))).roll {}
        (Script.ofList [1, 6, 3]) =
      (.ok ⟨-4, #[⟨1, 6, 1, false, none, none⟩, ⟨1, 6, 6, true, none, none⟩,
        ⟨1, 6, 3, true, some 0, none⟩],
        ⟨[(0, -4), (1, 9), (2, -2), (3, 2)], by decide⟩⟩, ⟨#[1, 6, 3], 3⟩) ∧
    ∀ node sub, (node, sub) ∈
        (Expression.binary .div (.dice ⟨2, 6, [.reroll none]⟩) (.negate (.literal 2))).numbered 0 →
      Accounted ⟨[(0, -4), (1, 9), (2, -2), (3, 2)], by decide⟩
        [⟨1, 6, 1, false, none, none⟩, ⟨1, 6, 6, true, none, none⟩, ⟨1, 6, 3, true, some 0, none⟩]
        node sub := by
  have h : (Expression.binary .div (.dice ⟨2, 6, [.reroll none]⟩) (.negate (.literal 2))).roll {}
      (Script.ofList [1, 6, 3]) =
      (.ok ⟨-4, #[⟨1, 6, 1, false, none, none⟩, ⟨1, 6, 6, true, none, none⟩,
        ⟨1, 6, 3, true, some 0, none⟩],
        ⟨[(0, -4), (1, 9), (2, -2), (3, 2)], by decide⟩⟩, ⟨#[1, 6, 3], 3⟩) := by
    decide +kernel
  exact ⟨h, (Expression.roll_subTotals h).2.2⟩

end DiceNotation
