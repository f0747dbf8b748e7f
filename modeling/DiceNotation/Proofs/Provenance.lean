import DiceNotation.Faces.Script
import DiceNotation.Proofs.Explained

/-!
# Where the dice of a trail come from

The trail of a roll is the blocks of its dice terms one behind the other, in pre-order. What holds
inside each block then holds of the trail, since links stay in their block.
-/
namespace DiceNotation

/-- Outcomes that lie on the trail from the given place on, as one block for each dice term. -/
inductive Blocks : Nat → List (Nat × DiceTerm) → List Outcome → Prop
  | nil {start} : Blocks start [] []
  | cons {start node term block terms outcomes} (first : Block node term start block)
      (others : Blocks (start + block.length) terms outcomes) :
      Blocks start ((node, term) :: terms) (block ++ outcomes)

namespace Blocks

variable {start : Nat} {terms others : List (Nat × DiceTerm)} {outcomes added : List Outcome}

theorem append (h : Blocks start terms outcomes)
    (h' : Blocks (start + outcomes.length) others added) :
    Blocks start (terms ++ others) (outcomes ++ added) := by
  induction h with
  | nil => exact h'
  | cons first _ ih =>
    rw [List.length_append, ← Nat.add_assoc] at h'
    rw [List.append_assoc]
    exact .cons first (ih h')

theorem term_mem (h : Blocks start terms outcomes) {outcome : Outcome}
    (houtcome : outcome ∈ outcomes) : outcome.term ∈ terms.map Prod.fst := by
  induction h with
  | nil => cases houtcome
  | cons first _ ih =>
    rcases List.mem_append.mp houtcome with hfirst | hothers
    · obtain ⟨j, hj⟩ := List.mem_iff_getElem?.mp hfirst
      rw [(first.placed j outcome hj).term_eq]
      exact .head _
    · exact .tail _ (ih hothers)

theorem link_mem (h : Blocks start terms outcomes) {outcome : Outcome} {die : Nat}
    (houtcome : outcome ∈ outcomes)
    (hlink : outcome.rerolledFrom = some die ∨ outcome.explodedFrom = some die) :
    start ≤ die ∧ die < start + outcomes.length := by
  induction h with
  | nil => cases houtcome
  | cons first _ ih =>
    rw [List.length_append]
    rcases List.mem_append.mp houtcome with hfirst | hothers
    · have := first.link_mem hfirst hlink
      omega
    · have := ih hothers
      omega

theorem bounds_of_mem_rerolls (h : Blocks start terms outcomes) {die : Nat}
    (hdie : die ∈ rerolls outcomes) : start ≤ die ∧ die < start + outcomes.length := by
  obtain ⟨outcome, houtcome, hlink⟩ := List.mem_filterMap.mp hdie
  exact h.link_mem houtcome (.inl hlink)

theorem bounds_of_mem_explosions (h : Blocks start terms outcomes) {die : Nat}
    (hdie : die ∈ explosions outcomes) : start ≤ die ∧ die < start + outcomes.length := by
  obtain ⟨outcome, houtcome, hlink⟩ := List.mem_filterMap.mp hdie
  exact h.link_mem houtcome (.inr hlink)

theorem nodup_rerolls (h : Blocks start terms outcomes) : (rerolls outcomes).Nodup := by
  induction h with
  | nil => exact .nil
  | cons first others ih =>
    rw [rerolls_append, List.nodup_append]
    refine ⟨first.once, ih, fun die hdie other hother heq => ?_⟩
    have := first.lt_of_mem_rerolls hdie
    have := others.bounds_of_mem_rerolls hother
    omega

theorem replaced (h : Blocks start terms outcomes) {j : Nat} {outcome : Outcome}
    (hj : outcomes[j]? = some outcome) (hreplaced : start + j ∈ rerolls outcomes) :
    outcome.kept = false := by
  induction h generalizing j with
  | nil => cases hreplaced
  | @cons start node term block terms outcomes first others ih =>
    rw [rerolls_append, List.mem_append] at hreplaced
    rcases Nat.lt_or_ge j block.length with hlt | hle
    · rw [List.getElem?_append_left hlt] at hj
      refine first.replaced j outcome hj (hreplaced.resolve_right fun hothers => ?_)
      have := others.bounds_of_mem_rerolls hothers
      omega
    · rw [List.getElem?_append_right hle] at hj
      have hplace : start + j = start + block.length + (j - block.length) := by omega
      refine ih hj (hplace ▸ hreplaced.resolve_left fun hfirst => ?_)
      have := first.lt_of_mem_rerolls hfirst
      omega

theorem exploded (h : Blocks start terms outcomes) (hnodup : (terms.map Prod.fst).Nodup) {j : Nat}
    {outcome : Outcome} {term : DiceTerm} (hj : outcomes[j]? = some outcome)
    (hterm : (outcome.term, term) ∈ terms) :
    (explosions outcomes).count (start + j) ≤ term.explosions := by
  induction h generalizing j with
  | nil => cases hterm
  | @cons start node head block terms outcomes first others ih =>
    rw [List.map_cons, List.nodup_cons] at hnodup
    rw [explosions_append, List.count_append]
    rcases Nat.lt_or_ge j block.length with hlt | hle
    · rw [List.getElem?_append_left hlt] at hj
      have hnone : (explosions outcomes).count (start + j) = 0 := by
        refine List.count_eq_zero.mpr fun hothers => ?_
        have := others.bounds_of_mem_explosions hothers
        omega
      rw [(first.placed j outcome hj).term_eq] at hterm
      rcases List.mem_cons.mp hterm with heq | hmem
      · cases heq
        rw [hnone]
        exact first.exploded (start + j)
      · exact absurd (List.mem_map_of_mem hmem) hnodup.1
    · rw [List.getElem?_append_right hle] at hj
      have hnone : (explosions block).count (start + j) = 0 := by
        refine List.count_eq_zero.mpr fun hfirst => ?_
        obtain ⟨other, hother, hlink⟩ := List.mem_filterMap.mp hfirst
        have := first.link_mem hother (.inr hlink)
        omega
      rcases List.mem_cons.mp hterm with heq | hmem
      · have hmem := others.term_mem (List.mem_of_getElem? hj)
        rw [(Prod.mk.inj heq).1] at hmem
        exact absurd hmem hnodup.1
      · have hplace : start + j = start + block.length + (j - block.length) := by omega
        rw [hnone, Nat.zero_add, hplace]
        exact ih hnodup.2 hj hmem

end Blocks

theorem Explained.blocks {subTotals : SubTotals} {node start : Nat} {expression : Expression}
    {value : Int64} {outcomes : List Outcome}
    (h : Explained subTotals node start expression value outcomes) :
    Blocks start (expression.diceTerms node) outcomes := by
  induction h with
  | literal => exact .nil
  | dice _ block _ =>
    have := Blocks.cons block .nil
    rwa [List.append_nil] at this
  | binary _ _ _ _ ihLeft ihRight =>
    rw [Expression.diceTerms_binary]
    exact ihLeft.append ihRight
  | group _ _ ih => exact ih
  | negate _ _ _ ih => exact ih

variable {σ : Type} [FaceSource σ] {limits : Limits} {source after : σ}

/-- The trail of a roll: one block for each dice term in pre-order, in which links are in order; no
die is replaced twice, a die that is replaced is dropped, and no die adds more dice than its term
has modifiers that explode dice. -/
theorem Expression.roll_trail {expression : Expression} {evaluation : Evaluation}
    (h : expression.roll limits source = (.ok evaluation, after)) :
    Blocks 0 (expression.diceTerms 0) evaluation.trail.toList ∧
    (rerolls evaluation.trail.toList).Nodup ∧
    (∀ die outcome, evaluation.trail[die]? = some outcome →
      die ∈ rerolls evaluation.trail.toList → outcome.kept = false) ∧
    ∀ die outcome term, evaluation.trail[die]? = some outcome →
      (outcome.term, term) ∈ expression.diceTerms 0 →
        (explosions evaluation.trail.toList).count die ≤ term.explosions := by
  have hblocks := (expression.roll_explained h).1.blocks
  refine ⟨hblocks, hblocks.nodup_rerolls, fun die outcome hdie hreplaced => ?_,
    fun die outcome term hdie hterm => ?_⟩
  · rw [← Array.getElem?_toList] at hdie
    exact hblocks.replaced hdie (by rwa [Nat.zero_add])
  · rw [← Array.getElem?_toList] at hdie
    have hcount := hblocks.exploded (expression.nodup_diceTerms 0) hdie hterm
    rwa [Nat.zero_add] at hcount

/-- Two dice of which one is replaced and the other adds a die. -/
theorem Expression.roll_trail_of_reroll_and_explosion :
    (Expression.dice ⟨2, 6, [.reroll none, .explode none]⟩).roll {} (Script.ofList [1, 6, 3, 2]) =
      (.ok ⟨11, #[⟨0, 6, 1, false, none, none⟩, ⟨0, 6, 6, true, none, none⟩,
        ⟨0, 6, 3, true, some 0, none⟩, ⟨0, 6, 2, true, none, some 1⟩], .insert ∅ 0 11⟩,
        ⟨#[1, 6, 3, 2], 4⟩) ∧
    Blocks 0 [(0, ⟨2, 6, [.reroll none, .explode none]⟩)]
      [⟨0, 6, 1, false, none, none⟩, ⟨0, 6, 6, true, none, none⟩,
        ⟨0, 6, 3, true, some 0, none⟩, ⟨0, 6, 2, true, none, some 1⟩] := by
  have h : (Expression.dice ⟨2, 6, [.reroll none, .explode none]⟩).roll {}
      (Script.ofList [1, 6, 3, 2]) =
      (.ok ⟨11, #[⟨0, 6, 1, false, none, none⟩, ⟨0, 6, 6, true, none, none⟩,
        ⟨0, 6, 3, true, some 0, none⟩, ⟨0, 6, 2, true, none, some 1⟩], .insert ∅ 0 11⟩,
        ⟨#[1, 6, 3, 2], 4⟩) := by
    decide +kernel
  exact ⟨h, (Expression.roll_trail h).1⟩

end DiceNotation
