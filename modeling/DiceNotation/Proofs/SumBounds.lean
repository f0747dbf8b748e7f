import Mathlib.Algebra.Order.BigOperators.Group.List
import Mathlib.Algebra.Order.Ring.Nat
import DiceNotation.Proofs.CountedFaces
import DiceNotation.Proofs.Provenance
import DiceNotation.Proofs.Ranking
import DiceNotation.Proofs.SubTotals

/-!
# Sums of dice

A dice budget that is not out of all proportion keeps the sums of dice within 64 bits. What
overflows is then always an operator or a negation, and a sum lies between what its dice show at
least and at most.
-/
namespace DiceNotation

section Totals

variable {faces : List UInt32}

theorem totalOf_eq_sum (faces : List UInt32) : totalOf faces = (faces.map UInt32.toNat).sum := by
  rw [totalOf, List.sum_eq_foldl, List.foldl_map]

theorem length_le_totalOf (h : ∀ face ∈ faces, 1 ≤ face) : faces.length ≤ totalOf faces := by
  have hsum := List.card_nsmul_le_sum (faces.map UInt32.toNat) 1
    (List.forall_mem_map.mpr fun face hface => UInt32.le_iff_toNat_le.mp (h face hface))
  rwa [List.length_map, Nat.nsmul_eq_mul, Nat.mul_one, ← totalOf_eq_sum] at hsum

theorem totalOf_le {sides : UInt32} (h : ∀ face ∈ faces, face ≤ sides) :
    totalOf faces ≤ faces.length * sides.toNat := by
  have hsum := List.sum_le_card_nsmul (faces.map UInt32.toNat) sides.toNat
    (List.forall_mem_map.mpr fun face hface => UInt32.le_iff_toNat_le.mp (h face hface))
  rwa [List.length_map, Nat.nsmul_eq_mul, ← totalOf_eq_sum] at hsum

/-- So many faces, whatever they are, add up to a 64-bit integer. -/
theorem exists_narrow?_totalOf (h : faces.length ≤ 2 ^ 31) :
    ∃ value, narrow? (totalOf faces) = some value := by
  have hmax : ∀ face ∈ faces, face ≤ UInt32.ofNat (2 ^ 32 - 1) := by
    intro face _
    rw [UInt32.le_iff_toNat_le]
    exact Nat.le_of_lt_succ face.toNat_lt
  have htotal : totalOf faces ≤ 2 ^ 31 * (2 ^ 32 - 1) :=
    (totalOf_le hmax).trans (Nat.mul_le_mul_right _ h)
  unfold narrow?
  rw [Int64.toInt_minValue, Int64.toInt_maxValue, if_pos (by omega)]
  exact ⟨_, rfl⟩

end Totals

/-- A step that keeps to the budget leaves no more dice on the trail than it allows. -/
theorem Roller.CountedBy.size_le {σ α β : Type} {limits : Limits} {image : α → β}
    {step : Roller σ α} {step' : Roller (Counted σ) β} {table after : Table σ} {a : α}
    (h : CountedBy limits image step step') (hstep : step table = .ok a after)
    (hsize : table.trail.size ≤ limits.dice) : after.trail.size ≤ limits.dice := by
  have hcounts := h table hsize
  rw [hstep] at hcounts
  generalize step' table.counted = result at hcounts
  cases hcounts with
  | ok _ budget => exact budget

namespace Underway

variable {σ : Type} [FaceSource σ] {limits : Limits} {node : Nat} {term : DiceTerm}
  {start table : Table σ} {live : List Nat}

/-- Dice are thrown within the budget. -/
theorem size_le (h : Underway limits node term start table live)
    (hstart : start.trail.size ≤ limits.dice) : table.trail.size ≤ limits.dice := by
  obtain ⟨modifiers, h⟩ := h
  obtain ⟨⟨⟩, thrown, hthrow, hmodifiers⟩ := Roller.bind_eq_ok.mp h
  have hthrown := (Roller.counting.throwDice node _ _).size_le hthrow hstart
  exact (Roller.counting.foldlM (Roller.counting.applyModifier node term) _ _).size_le hmodifiers
    hthrown

/-- Different dice are live, so no more than the budget allows. -/
theorem length_le (h : Underway limits node term start table live)
    (hstart : start.trail.size ≤ limits.dice) : live.length ≤ limits.dice := by
  refine Nat.le_trans ?_ (h.size_le hstart)
  have hsub : live ⊆ List.range table.trail.size := by
    intro die hdie
    obtain ⟨outcome, houtcome, -⟩ := h.exists_outcome hdie
    exact List.mem_range.mpr (Array.getElem?_eq_some_iff.mp houtcome).1
  rw [← List.length_range (n := table.trail.size)]
  exact (List.subperm_of_subset h.nodup hsub).length_le

/-- The faces of the live dice are added up without overflow, and come to what they show. -/
theorem exists_sum (h : Underway limits node term start table live)
    (hstart : start.trail.size ≤ limits.dice) (hdice : limits.dice ≤ 2 ^ 31) :
    ∃ value, Roller.sumOf term live table = .ok value table ∧
      value.toInt = totalOf (live.map table.faceAt) := by
  have hlength : (live.map table.faceAt).length ≤ 2 ^ 31 := by
    rw [List.length_map]
    exact (h.length_le hstart).trans hdice
  obtain ⟨value, hvalue⟩ := exists_narrow?_totalOf hlength
  refine ⟨value, ?_, narrow?_eq_some_iff.mp hvalue⟩
  rw [Roller.sumOf_apply fun die => h.shows, hvalue]

end Underway

/-! ### Where overflows come from -/

/-- The source has come to its state by refusing a die with the error. -/
def HasRefusedWith {σ : Type} [FaceSource σ] (source : σ) (error : RollError) : Prop :=
  ∃ sides former, FaceSource.answer sides former = (.error error, source)

/-- The node is an operator or a negation, which fails with the error for the sub-totals of its
operands. -/
def FailsAt (subTotals : SubTotals) (error : RollError) (node : Nat) : Expression → Prop
  | .binary operator left _ =>
    ∃ leftTotal rightTotal, subTotals.get? (node + 1) = some leftTotal ∧
      subTotals.get? (node + 1 + left.size) = some rightTotal ∧
        operator.apply leftTotal rightTotal = .error error
  | .negate _ =>
    ∃ innerTotal, subTotals.get? (node + 1) = some innerTotal ∧ negated innerTotal = .error error
  | _ => False

/-- The error comes from one of the nodes, or else from the source. -/
def TracedTo {σ : Type} [FaceSource σ] (table : Table σ) (error : RollError)
    (nodes : List (Nat × Expression)) : Prop :=
  HasRefusedWith table.source error ∨
    ∃ node sub, (node, sub) ∈ nodes ∧ FailsAt table.subTotals error node sub

theorem TracedTo.mono {σ : Type} [FaceSource σ] {table : Table σ} {error : RollError}
    {nodes more : List (Nat × Expression)} (h : TracedTo table error nodes) (hsub : nodes ⊆ more) :
    TracedTo table error more := by
  rcases h with h | ⟨node, sub, hmem, hfails⟩
  · exact .inl h
  · exact .inr ⟨node, sub, hsub hmem, hfails⟩

namespace Roller

variable {σ α β : Type} [FaceSource σ] {limits : Limits}

/-- The step adds nothing up: if it fails with an overflow, it is the source that does. -/
def AddsNothing (step : Roller σ α) : Prop :=
  ∀ ⦃table after error⦄, step table = .error error after → error.kind = .arithmeticOverflow →
    HasRefusedWith after.source error

theorem pure_addsNothing (a : α) : AddsNothing (pure a : Roller σ α) := by
  intro table after error h
  cases h

theorem throw_addsNothing {error : RollError} (h : error.kind ≠ .arithmeticOverflow) :
    AddsNothing (throw error : Roller σ α) := by
  intro table after other hother hkind
  cases hother
  exact absurd hkind h

theorem bind_addsNothing {step : Roller σ α} {next : α → Roller σ β} (hstep : AddsNothing step)
    (hnext : ∀ a, AddsNothing (next a)) : AddsNothing (step >>= next) := by
  intro table after error h hkind
  rcases bind_eq_error.mp h with h | ⟨a, between, -, h⟩
  · exact hstep h hkind
  · exact hnext a h hkind

theorem ite_addsNothing {condition : Prop} [Decidable condition] {step step' : Roller σ α}
    (h : AddsNothing step) (h' : AddsNothing step') :
    AddsNothing (if condition then step else step') := by
  split
  · exact h
  · exact h'

theorem guard_addsNothing {condition : Prop} [Decidable condition] {error : RollError}
    {next : PUnit → Roller σ α} (herror : error.kind ≠ .arithmeticOverflow)
    (hnext : AddsNothing (next ())) :
    AddsNothing (if condition then throw error >>= next else next ()) :=
  ite_addsNothing (throw_addsNothing herror) hnext

section Lists

theorem mapM_addsNothing {f : α → Roller σ β} (h : ∀ a, AddsNothing (f a)) (as : List α) :
    AddsNothing (as.mapM f) := by
  induction as with
  | nil => exact pure_addsNothing []
  | cons a as ih =>
    rw [List.mapM_cons]
    exact bind_addsNothing (h a) fun b => bind_addsNothing ih fun bs => pure_addsNothing (b :: bs)

theorem forM_addsNothing {f : α → Roller σ PUnit} (h : ∀ a, AddsNothing (f a)) (as : List α) :
    AddsNothing (as.forM f) := by
  induction as with
  | nil => exact pure_addsNothing ()
  | cons a as ih => exact bind_addsNothing (h a) fun _ => ih

theorem foldlM_addsNothing {f : β → α → Roller σ β} (h : ∀ b a, AddsNothing (f b a))
    (as : List α) (b : β) : AddsNothing (as.foldlM f b) := by
  induction as generalizing b with
  | nil => exact pure_addsNothing b
  | cons a as ih =>
    rw [List.foldlM_cons]
    exact bind_addsNothing (h b a) ih

end Lists

theorem get_addsNothing : AddsNothing (get : Roller σ (Table σ)) := by
  intro table after error h
  cases h

theorem remark_addsNothing (said : Remark) : AddsNothing (remark said : Roller σ Unit) := by
  intro table after error h
  cases h

theorem checkTime_addsNothing : AddsNothing (checkTime limits : Roller σ Unit) := by
  intro table after error h hkind
  rw [checkTime_apply] at h
  cases htime : limits.time with
  | none =>
    rw [htime] at h
    cases h
  | some budget =>
    rw [htime] at h
    dsimp only at h
    split at h
    · cases h
      cases hkind
    · cases h

theorem faceOf_addsNothing (die : Nat) : AddsNothing (faceOf die : Roller σ UInt32) := by
  intro table after error h hkind
  rw [faceOf_apply] at h
  split at h
  · cases h
  · cases h
    cases hkind

theorem retire_addsNothing (die : Nat) : AddsNothing (retire die : Roller σ Unit) := by
  intro table after error h hkind
  rw [retire_apply] at h
  split at h
  · cases h
  · cases h
    cases hkind

section Modifiers

variable (node : Nat) (term : DiceTerm) (condition : Condition) (rank : Rank) (amount : UInt32)
  (live : List Nat)

theorem throwDie_addsNothing (sides : UInt32) (cause : Cause) :
    AddsNothing (throwDie limits node sides cause : Roller σ Nat) := by
  have hlay : AddsNothing (layDie node sides cause : Roller σ Nat) := by
    intro table after error h _
    rcases hface : FaceSource.answer sides table.source with ⟨other | face, source⟩
    · rw [layDie_of_refused hface] at h
      cases h
      exact ⟨sides, table.source, hface⟩
    · rw [layDie_of_next (FaceSource.next_eq_ok_iff.mpr hface)] at h
      cases h
  unfold throwDie
  refine bind_addsNothing get_addsNothing fun _ => guard_addsNothing nofun ?_
  exact bind_addsNothing checkTime_addsNothing fun _ => hlay

theorem throwDice_addsNothing (sides : UInt32) (count : Nat) :
    AddsNothing (throwDice limits node sides count : Roller σ Unit) := by
  induction count with
  | zero => exact pure_addsNothing ()
  | succ count ih => exact bind_addsNothing (throwDie_addsNothing node sides .term) fun _ => ih

/-- Dropping a part of the ranking, as keeping and dropping both do. -/
theorem dropRanked_addsNothing (pick : List Nat → List Nat) :
    AddsNothing
      (do
        checkAmount term amount
        let ranking ← ranked rank live
        dropDice live (pick ranking) : Roller σ (List Nat)) := by
  have hcheck : AddsNothing (checkAmount term amount : Roller σ Unit) :=
    ite_addsNothing (throw_addsNothing nofun) (pure_addsNothing ())
  have hface (die : Nat) : AddsNothing (do return (die, ← faceOf die) : Roller σ _) :=
    bind_addsNothing (faceOf_addsNothing die) fun face => pure_addsNothing (die, face)
  have hranked : AddsNothing (ranked rank live : Roller σ _) :=
    bind_addsNothing (mapM_addsNothing hface _) fun _ => pure_addsNothing _
  refine bind_addsNothing hcheck fun _ => bind_addsNothing hranked fun ranking => ?_
  exact bind_addsNothing (forM_addsNothing retire_addsNothing _) fun _ => pure_addsNothing _

theorem replaceDie_addsNothing (die : Nat) :
    AddsNothing (replaceDie limits node term die : Roller σ Nat) :=
  bind_addsNothing (retire_addsNothing die) fun _ => throwDie_addsNothing node _ _

theorem rerollDie_addsNothing (once : Bool) (depth die : Nat) :
    AddsNothing (rerollDie limits node term condition once depth die : Roller σ Nat) := by
  induction depth generalizing die with
  | zero =>
    refine bind_addsNothing (faceOf_addsNothing die) fun face => ?_
    refine ite_addsNothing ?_ (pure_addsNothing die)
    exact ite_addsNothing (pure_addsNothing die) (throw_addsNothing nofun)
  | succ depth ih =>
    refine bind_addsNothing (faceOf_addsNothing die) fun face => ?_
    exact ite_addsNothing (bind_addsNothing (replaceDie_addsNothing node term die) ih)
      (pure_addsNothing die)

theorem explodeDie_addsNothing (depth die : Nat) :
    AddsNothing (explodeDie limits node term condition depth die : Roller σ (List Nat)) := by
  induction depth generalizing die with
  | zero =>
    refine bind_addsNothing (faceOf_addsNothing die) fun face => ?_
    exact ite_addsNothing (throw_addsNothing nofun) (pure_addsNothing [])
  | succ depth ih =>
    refine bind_addsNothing (faceOf_addsNothing die) fun face => ?_
    refine ite_addsNothing ?_ (pure_addsNothing [])
    refine bind_addsNothing (throwDie_addsNothing node _ _) fun new => ?_
    exact bind_addsNothing (ih new) fun _ => pure_addsNothing _

theorem applyModifier_addsNothing (modifier : Modifier) :
    AddsNothing (applyModifier limits node term live modifier : Roller σ (List Nat)) := by
  have hskip (said : Remark) : AddsNothing (do remark said; return live : Roller σ (List Nat)) :=
    bind_addsNothing (remark_addsNothing said) fun _ => pure_addsNothing live
  cases modifier with
  | keep rank amount => exact dropRanked_addsNothing term rank amount live _
  | drop rank amount => exact dropRanked_addsNothing term rank amount live _
  | reroll condition =>
    exact ite_addsNothing (mapM_addsNothing (rerollDie_addsNothing node term _ _ _) live) (hskip _)
  | rerollOnce condition =>
    exact ite_addsNothing (mapM_addsNothing (rerollDie_addsNothing node term _ _ _) live) (hskip _)
  | explode condition =>
    refine ite_addsNothing ?_ (hskip _)
    exact bind_addsNothing (mapM_addsNothing (explodeDie_addsNothing node term _ _) live) fun _ =>
      pure_addsNothing _

theorem rollFaces_addsNothing : AddsNothing (rollFaces limits node term : Roller σ _) := by
  unfold rollFaces
  refine guard_addsNothing nofun (guard_addsNothing nofun ?_)
  refine bind_addsNothing get_addsNothing fun _ => ?_
  refine bind_addsNothing (throwDice_addsNothing node _ _) fun _ => ?_
  refine bind_addsNothing (foldlM_addsNothing (applyModifier_addsNothing node term) _ _) ?_
  exact mapM_addsNothing faceOf_addsNothing

end Modifiers

variable {table after : Table σ} {error : RollError}

/-- The sum of a term does not overflow, so no more does the term. -/
theorem refusesWith_of_rollTerm {node : Nat} {term : DiceTerm}
    (h : rollTerm limits node term table = .error error after)
    (hkind : error.kind = .arithmeticOverflow) (hsize : table.trail.size ≤ limits.dice)
    (hdice : limits.dice ≤ 2 ^ 31) : HasRefusedWith after.source error := by
  rw [rollTerm_eq] at h
  rcases bind_eq_error.mp h with h | ⟨faces, rolled, hfaces, h⟩
  · exact rollFaces_addsNothing node term h hkind
  · obtain ⟨live, hrun, hshown⟩ := rollFaces_eq_ok hfaces
    have hunderway : Underway limits node term table rolled live := ⟨term.modifiers, hrun⟩
    have hlength : faces.length ≤ 2 ^ 31 := by
      rw [← hshown.length_eq]
      exact (hunderway.length_le hsize).trans hdice
    obtain ⟨value, hvalue⟩ := exists_narrow?_totalOf hlength
    rw [addUp, hvalue] at h
    cases h

theorem visit_addsNothing : AddsNothing (visit limits : Roller σ Nat) := by
  refine bind_addsNothing checkTime_addsNothing fun _ => ?_
  intro table after error h
  cases h

omit [FaceSource σ] in
theorem settle_eq_error {result : Except RollError α}
    (h : settle result table = .error error after) :
    result = .error error ∧ table = after := by
  cases result with
  | ok a => cases h
  | error other =>
    cases h
    exact ⟨rfl, rfl⟩

/-- What overflows is an operator or a negation, unless the source says so itself. -/
theorem rollNodes_tracedTo (hdice : limits.dice ≤ 2 ^ 31) {expression : Expression}
    (h : rollNodes limits expression table = .error error after)
    (hkind : error.kind = .arithmeticOverflow) (hsize : table.trail.size ≤ limits.dice) :
    TracedTo after error (expression.numbered table.nodes) := by
  induction expression generalizing table with
  | literal value =>
    rcases bind_eq_error.mp h with h | ⟨node, visited, -, h⟩
    · exact .inl (visit_addsNothing h hkind)
    · cases h
  | dice term =>
    rcases bind_eq_error.mp h with h | ⟨node, visited, hvisit, h⟩
    · exact .inl (visit_addsNothing h hkind)
    obtain ⟨rfl, readings, rfl⟩ := visit_eq_ok hvisit
    rcases bind_eq_error.mp h with h | ⟨rolled, between, -, h⟩
    · exact .inl (refusesWith_of_rollTerm h hkind hsize hdice)
    · cases h
  | binary operator left right ihLeft ihRight =>
    rcases bind_eq_error.mp h with h | ⟨node, visited, hvisit, h⟩
    · exact .inl (visit_addsNothing h hkind)
    obtain ⟨rfl, readings, rfl⟩ := visit_eq_ok hvisit
    rcases bind_eq_error.mp h with h | ⟨leftValue, between, hleft, h⟩
    · exact (ihLeft h hsize).mono (List.subset_cons_of_subset _ (List.subset_append_left _ _))
    have hbetween := (counting.rollNodes left).size_le hleft hsize
    obtain ⟨hnodes, -, leftOutcomes, -, hexplained⟩ := rollNodes_explained hleft
    dsimp only at hnodes hexplained
    rcases bind_eq_error.mp h with h | ⟨rightValue, last, hright, h⟩
    · have hright := ihRight h hbetween
      rw [hnodes] at hright
      exact hright.mono (List.subset_cons_of_subset _ (List.subset_append_right _ _))
    obtain ⟨-, hframe, rightOutcomes, -, hexplained'⟩ := rollNodes_explained hright
    rcases bind_eq_error.mp h with h | ⟨result, settled, -, h⟩
    · obtain ⟨hfails, rfl⟩ := settle_eq_error h
      refine .inr ⟨_, _, .head _, leftValue, rightValue, ?_, ?_, hfails⟩
      · have hsize := left.size_pos
        rw [hframe _ (.inl (by omega))]
        exact hexplained.entered
      · rw [← hnodes]
        exact hexplained'.entered
    · cases h
  | group inner ih =>
    rcases bind_eq_error.mp h with h | ⟨node, visited, hvisit, h⟩
    · exact .inl (visit_addsNothing h hkind)
    obtain ⟨rfl, readings, rfl⟩ := visit_eq_ok hvisit
    rcases bind_eq_error.mp h with h | ⟨value, between, -, h⟩
    · exact (ih h hsize).mono (List.subset_cons_self _ _)
    · cases h
  | negate inner ih =>
    rcases bind_eq_error.mp h with h | ⟨node, visited, hvisit, h⟩
    · exact .inl (visit_addsNothing h hkind)
    obtain ⟨rfl, readings, rfl⟩ := visit_eq_ok hvisit
    rcases bind_eq_error.mp h with h | ⟨value, between, hinner, h⟩
    · exact (ih h hsize).mono (List.subset_cons_self _ _)
    obtain ⟨-, -, outcomes, -, hexplained⟩ := rollNodes_explained hinner
    rcases bind_eq_error.mp h with h | ⟨result, settled, -, h⟩
    · obtain ⟨hfails, rfl⟩ := settle_eq_error h
      exact .inr ⟨_, _, .head _, value, hexplained.entered, hfails⟩
    · cases h

end Roller

/-- A whole roll that overflows does so at an operator or a negation. -/
theorem Expression.rollAt_tracedTo {σ : Type} [FaceSource σ] {limits : Limits}
    (hdice : limits.dice ≤ 2 ^ 31) {expression : Expression} {source : σ} {error : RollError}
    {table : Table σ} (h : expression.rollAt limits source = .error error table)
    (hkind : error.kind = .arithmeticOverflow) : TracedTo table error (expression.numbered 0) := by
  unfold rollAt Roller.rollExpression at h
  split at h
  · cases h
    cases hkind
  · rcases Roller.bind_eq_error.mp h with h | ⟨total, rolled, -, h⟩
    · exact Roller.rollNodes_tracedTo hdice h hkind (Nat.zero_le _)
    · cases h

/-! ### Bounds on sub-totals -/

/-- The dice of a term have its sides. -/
theorem Blocks.sides_eq {start : Nat} {terms : List (Nat × DiceTerm)} {outcomes : List Outcome}
    (h : Blocks start terms outcomes) (hnodup : (terms.map Prod.fst).Nodup) {outcome : Outcome}
    {term : DiceTerm} (houtcome : outcome ∈ outcomes) (hterm : (outcome.term, term) ∈ terms) :
    outcome.sides = term.sides := by
  induction h with
  | nil => cases houtcome
  | @cons start node head block terms outcomes first others ih =>
    rw [List.map_cons, List.nodup_cons] at hnodup
    rcases List.mem_append.mp houtcome with hmem | hmem
    · obtain ⟨j, hj⟩ := List.mem_iff_getElem?.mp hmem
      have hplaced := first.placed j outcome hj
      rw [hplaced.term_eq] at hterm
      rcases List.mem_cons.mp hterm with heq | hlater
      · cases heq
        exact hplaced.sides_eq
      · exact absurd (List.mem_map_of_mem hlater) hnodup.1
    · rcases List.mem_cons.mp hterm with heq | hlater
      · have hother := others.term_mem hmem
        rw [(Prod.mk.inj heq).1] at hother
        exact absurd hother hnodup.1
      · exact ih hnodup.2 hmem hlater

def keptOf (node : Nat) (outcomes : List Outcome) : List Outcome :=
  (outcomesOf node outcomes).filter Outcome.kept

theorem keptTotal_bounds {node : Nat} {outcomes : List Outcome} {sides : UInt32}
    (h : ∀ outcome ∈ outcomesOf node outcomes, 1 ≤ outcome.value ∧ outcome.value ≤ sides) :
    (keptOf node outcomes).length ≤ keptTotal (outcomesOf node outcomes) ∧
      keptTotal (outcomesOf node outcomes) ≤ (keptOf node outcomes).length * sides.toNat := by
  have hfaces : ∀ face ∈ keptFaces (outcomesOf node outcomes), 1 ≤ face ∧ face ≤ sides :=
    List.forall_mem_map.mpr fun outcome hkept => h outcome (List.mem_filter.mp hkept).1
  have hlength : (keptFaces (outcomesOf node outcomes)).length = (keptOf node outcomes).length :=
    List.length_map _
  rw [← hlength]
  exact ⟨length_le_totalOf fun face hface => (hfaces face hface).1,
    totalOf_le fun face hface => (hfaces face hface).2⟩

/-- The sub-total of a dice term lies between the number of its dice that count and what these
could show at most. -/
theorem Expression.subTotal_bounds {σ : Type} [FaceSource σ] {limits : Limits}
    {expression : Expression} {source after : σ} {evaluation : Evaluation}
    (hsides : HandsSides source)
    (h : expression.roll limits source = (.ok evaluation, after)) {node : Nat} {term : DiceTerm}
    (hterm : (node, term) ∈ expression.diceTerms 0) :
    ∃ subTotal, evaluation.subTotal? node = some subTotal ∧
      (keptOf node evaluation.trail.toList).length ≤ subTotal.toInt ∧
      subTotal.toInt ≤ (keptOf node evaluation.trail.toList).length * term.sides.toNat := by
  have hexplained := (expression.roll_explained h).1
  obtain ⟨subTotal, hentered, htotal⟩ := hexplained.accounted (mem_numbered_of_mem_diceTerms hterm)
  refine ⟨subTotal, hentered, ?_⟩
  have hshown : ∀ outcome ∈ evaluation.trail.toList,
      1 ≤ outcome.value ∧ outcome.value ≤ outcome.sides := by
    rw [roll_eq_outcome (nodeCount_le_of_roll h)] at h
    obtain ⟨table, hroll, htrail, -, -⟩ := Roller.outcome_eq_ok h
    have hsided : Sided table.source table.trail :=
      (Invariant.sided.coupling limits).rollNodes expression hroll (Sided.fresh hsides)
    intro outcome hmem
    obtain ⟨die, hdie⟩ := List.mem_iff_getElem?.mp hmem
    rw [htrail, Array.getElem?_toList] at hdie
    exact hsided.2 die outcome hdie
  have hbounds : ∀ outcome ∈ outcomesOf node evaluation.trail.toList,
      1 ≤ outcome.value ∧ outcome.value ≤ term.sides := by
    intro outcome hmem
    obtain ⟨hmem, hnode⟩ := List.mem_filter.mp hmem
    have hsame := hexplained.blocks.sides_eq (expression.nodup_diceTerms 0) hmem
      (by rwa [of_decide_eq_true hnode])
    exact hsame ▸ hshown outcome hmem
  obtain ⟨hlow, hhigh⟩ := keptTotal_bounds hbounds
  rw [htotal]
  exact ⟨by exact_mod_cast hlow, by exact_mod_cast hhigh⟩

/-- Within a budget of 2 ^ 31 dice the dice of a term, at whatever point its modifiers have come to,
add up to a 64-bit integer. So what overflows is an operator or a negation, given the sub-totals of
its operands, unless it is the source that refuses a die with an overflow, which no source does that
keeps the contract. And the sub-total of a term lies between the number of its dice that count and
that number times its sides. -/
theorem Expression.sum_within_dice {σ : Type} [FaceSource σ] {limits : Limits}
    (hdice : limits.dice ≤ 2 ^ 31) (expression : Expression) (source : σ) :
    (∀ node term start table live, start.trail.size ≤ limits.dice →
      Underway (σ := σ) limits node term start table live →
        ∃ value, Roller.sumOf term live table = .ok value table ∧
          value.toInt = totalOf (live.map table.faceAt)) ∧
    (∀ error table, expression.rollAt limits source = .error error table →
      error.kind = .arithmeticOverflow →
        HasRefusedWith table.source error ∨ ∃ node sub, (node, sub) ∈ expression.numbered 0 ∧
          FailsAt table.subTotals error node sub) ∧
    (FaceSource.Contract σ → ∀ error table,
      expression.rollAt limits source = .error error table → error.kind = .arithmeticOverflow →
        ∃ node sub, (node, sub) ∈ expression.numbered 0 ∧
          FailsAt table.subTotals error node sub) ∧
    (HandsSides source → ∀ evaluation after,
      expression.roll limits source = (.ok evaluation, after) →
        ∀ node term, (node, term) ∈ expression.diceTerms 0 →
          ∃ subTotal, evaluation.subTotal? node = some subTotal ∧
            (keptOf node evaluation.trail.toList).length ≤ subTotal.toInt ∧
            subTotal.toInt ≤ (keptOf node evaluation.trail.toList).length * term.sides.toNat) := by
  refine ⟨fun node term start table live hstart h => h.exists_sum hstart hdice,
    fun error table => rollAt_tracedTo hdice, fun hcontract error table h hkind => ?_,
    fun hsides evaluation after h node term => subTotal_bounds hsides h⟩
  refine (rollAt_tracedTo hdice h hkind).resolve_left ?_
  rintro ⟨sides, former, hrefused⟩
  rw [(hcontract.reason (FaceSource.next_eq_error_iff.mpr ⟨_, hrefused⟩)).2] at hkind
  cases hkind

/-- A difference overflows whose right operand is a sum of dice, which did not. -/
theorem Expression.sum_within_dice_of_difference :
    ({} : Limits).dice ≤ 2 ^ 31 ∧
    (∃ error table, (binary .sub (negate (literal 9223372036854775807))
        (dice ⟨2, 6, [.reroll none, .explode none]⟩)).rollAt {} (Script.ofList [1, 6, 3, 2]) =
          .error error table ∧
      error.kind = .arithmeticOverflow ∧
      ∃ node sub, (node, sub) ∈ (binary .sub (negate (literal 9223372036854775807))
          (dice ⟨2, 6, [.reroll none, .explode none]⟩)).numbered 0 ∧
        FailsAt table.subTotals error node sub) ∧
    ∃ evaluation after, (binary .sub (literal 5)
        (dice ⟨2, 6, [.reroll none, .explode none]⟩)).roll {} (Script.ofList [1, 6, 3, 2]) =
          (.ok evaluation, after) ∧
      ∃ subTotal, evaluation.subTotal? 2 = some subTotal ∧ 3 ≤ subTotal.toInt ∧
        subTotal.toInt ≤ 3 * 6 := by
  have hbudget : ({} : Limits).dice ≤ 2 ^ 31 := by decide
  have hoverflow : (binary .sub (negate (literal 9223372036854775807))
      (dice ⟨2, 6, [.reroll none, .explode none]⟩)).rollAt {} (Script.ofList [1, 6, 3, 2]) =
      .error (.operatorOverflow .sub (-9223372036854775807) 11)
        ⟨⟨#[1, 6, 3, 2], 4⟩, #[⟨3, 6, 1, false, none, none⟩, ⟨3, 6, 6, true, none, none⟩,
          ⟨3, 6, 3, true, some 0, none⟩, ⟨3, 6, 2, true, none, some 1⟩], 4,
          ⟨[(1, -9223372036854775807), (2, 9223372036854775807), (3, 11)], by decide⟩, 0,
          #[.rolled 3 ⟨2, 6, [.reroll none, .explode none]⟩ 11]⟩ := by
    decide +kernel
  have hroll : (binary .sub (literal 5)
      (dice ⟨2, 6, [.reroll none, .explode none]⟩)).roll {} (Script.ofList [1, 6, 3, 2]) =
      (.ok ⟨-6, #[⟨2, 6, 1, false, none, none⟩, ⟨2, 6, 6, true, none, none⟩,
        ⟨2, 6, 3, true, some 0, none⟩, ⟨2, 6, 2, true, none, some 1⟩],
        ⟨[(0, -6), (1, 5), (2, 11)], by decide⟩⟩, ⟨#[1, 6, 3, 2], 4⟩) := by
    decide +kernel
  have hsides : HandsSides (Script.ofList [1, 6, 3, 2]) :=
    handsSides_of_showsSides rfl (Script.showsSides _)
  obtain ⟨-, -, hfails, -⟩ := sum_within_dice hbudget (binary .sub
    (negate (literal 9223372036854775807)) (dice ⟨2, 6, [.reroll none, .explode none]⟩))
    (Script.ofList [1, 6, 3, 2])
  obtain ⟨-, -, -, hbounds⟩ := sum_within_dice hbudget (binary .sub (literal 5)
    (dice ⟨2, 6, [.reroll none, .explode none]⟩)) (Script.ofList [1, 6, 3, 2])
  have hcontract : FaceSource.Contract Script := FaceSource.contract_of_answerOf rfl
  refine ⟨hbudget, ⟨_, _, hoverflow, rfl, hfails hcontract _ _ hoverflow rfl⟩, _, _, hroll, ?_⟩
  exact hbounds hsides _ _ hroll 2 _ (.head _)

end DiceNotation
