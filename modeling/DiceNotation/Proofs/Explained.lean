import DiceNotation.Proofs.TermRoll

/-!
# What an evaluation explains

A successful evaluation is explained node by node: every node has its place in pre-order, every
dice term its block of the trail, and every value follows from the values right below.
-/
namespace DiceNotation

namespace Expression

/-- The nodes of an expression in pre-order, numbered from the given one. -/
def numbered : Nat → Expression → List (Nat × Expression)
  | node, literal value => [(node, literal value)]
  | node, dice term => [(node, dice term)]
  | node, binary operator left right =>
    (node, binary operator left right) ::
      (numbered (node + 1) left ++ numbered (node + 1 + left.size) right)
  | node, group inner => (node, group inner) :: numbered (node + 1) inner
  | node, negate inner => (node, negate inner) :: numbered (node + 1) inner

def diceTerm? : Nat × Expression → Option (Nat × DiceTerm)
  | (node, dice term) => some (node, term)
  | _ => none

/-- The dice terms of an expression in pre-order, with the numbers of their nodes. -/
def diceTerms (node : Nat) (expression : Expression) : List (Nat × DiceTerm) :=
  (numbered node expression).filterMap diceTerm?

theorem map_fst_numbered (node : Nat) (expression : Expression) :
    (numbered node expression).map Prod.fst = List.range' node expression.size := by
  induction expression generalizing node with
  | literal value => rfl
  | dice term => rfl
  | binary operator left right ihLeft ihRight =>
    rw [numbered, List.map_cons, List.map_append, ihLeft, ihRight, size, List.range'_succ,
      List.range'_append_1]
  | group inner ih => rw [numbered, List.map_cons, ih, size, List.range'_succ]
  | negate inner ih => rw [numbered, List.map_cons, ih, size, List.range'_succ]

theorem bounds_of_mem_numbered {node n : Nat} {expression sub : Expression}
    (h : (n, sub) ∈ expression.numbered node) : node ≤ n ∧ n < node + expression.size := by
  have hn := List.mem_map_of_mem (f := Prod.fst) h
  rwa [map_fst_numbered, List.mem_range'_1] at hn

theorem diceTerms_binary (node : Nat) (operator : Operator) (left right : Expression) :
    (binary operator left right).diceTerms node =
      left.diceTerms (node + 1) ++ right.diceTerms (node + 1 + left.size) :=
  List.filterMap_append

theorem mem_numbered_of_mem_diceTerms {node start : Nat} {term : DiceTerm}
    {expression : Expression} (h : (node, term) ∈ expression.diceTerms start) :
    (node, dice term) ∈ expression.numbered start := by
  obtain ⟨⟨number, sub⟩, hsub, hterm⟩ := List.mem_filterMap.mp h
  cases sub with
  | dice other =>
    cases hterm
    exact hsub
  | _ => cases hterm

theorem map_fst_filterMap_diceTerm? (nodes : List (Nat × Expression)) :
    ((nodes.filterMap diceTerm?).map Prod.fst).Sublist (nodes.map Prod.fst) := by
  induction nodes with
  | nil => exact .slnil
  | cons first rest ih =>
    obtain ⟨node, expression⟩ := first
    cases expression with
    | dice term => exact ih.cons_cons node
    | _ => exact ih.cons node

theorem nodup_diceTerms (node : Nat) (expression : Expression) :
    ((expression.diceTerms node).map Prod.fst).Nodup := by
  refine (map_fst_filterMap_diceTerm? _).nodup ?_
  rw [map_fst_numbered]
  exact List.nodup_range'

end Expression

/-- The exact value of an operator; a quotient is cut off toward zero, and needs a divisor. -/
def Operator.Yields : Operator → Int → Int → Int → Prop
  | .add, left, right, value => value = left + right
  | .sub, left, right, value => value = left - right
  | .mul, left, right, value => value = left * right
  | .div, left, right, value => right ≠ 0 ∧ value = left.tdiv right

/-- An expression, whose nodes are numbered from the first number and whose dice lie on the trail
from the second, with its value and its outcomes on the trail. The values of its nodes are in the
map. -/
inductive Explained (subTotals : SubTotals) : Nat → Nat → Expression → Int64 → List Outcome → Prop
  | literal {node start value} (entered : subTotals.get? node = some value) :
      Explained subTotals node start (.literal value) value []
  | dice {node start term value outcomes} (entered : subTotals.get? node = some value)
      (block : Block node term start outcomes) (total : value.toInt = keptTotal outcomes) :
      Explained subTotals node start (.dice term) value outcomes
  | binary {node start operator left right leftValue rightValue value leftOutcomes rightOutcomes}
      (entered : subTotals.get? node = some value)
      (hleft : Explained subTotals (node + 1) start left leftValue leftOutcomes)
      (hright : Explained subTotals (node + 1 + left.size) (start + leftOutcomes.length) right
        rightValue rightOutcomes)
      (yields : operator.Yields leftValue.toInt rightValue.toInt value.toInt) :
      Explained subTotals node start (.binary operator left right) value
        (leftOutcomes ++ rightOutcomes)
  | group {node start inner value outcomes} (entered : subTotals.get? node = some value)
      (hinner : Explained subTotals (node + 1) start inner value outcomes) :
      Explained subTotals node start (.group inner) value outcomes
  | negate {node start inner innerValue value outcomes}
      (entered : subTotals.get? node = some value)
      (hinner : Explained subTotals (node + 1) start inner innerValue outcomes)
      (negated : value.toInt = -innerValue.toInt) :
      Explained subTotals node start (.negate inner) value outcomes

/-- Values of other nodes do not matter. -/
theorem Explained.congr {subTotals later : SubTotals} {node start : Nat} {expression : Expression}
    {value : Int64} {outcomes : List Outcome}
    (h : Explained subTotals node start expression value outcomes)
    (hlater : ∀ n, node ≤ n → n < node + expression.size → later.get? n = subTotals.get? n) :
    Explained later node start expression value outcomes := by
  induction h with
  | literal entered => exact .literal (by rwa [hlater _ (by omega) (by simp [Expression.size])])
  | dice entered block total =>
    exact .dice (by rwa [hlater _ (by omega) (by simp [Expression.size])]) block total
  | binary entered _ _ yields ihLeft ihRight =>
    rw [Expression.size] at hlater
    refine .binary (by rwa [hlater _ (by omega) (by omega)]) (ihLeft fun n hle hlt => ?_)
      (ihRight fun n hle hlt => ?_) yields
    · exact hlater n (by omega) (by omega)
    · exact hlater n (by omega) (by omega)
  | group entered _ ih =>
    rw [Expression.size] at hlater
    refine .group (by rwa [hlater _ (by omega) (by omega)]) (ih fun n hle hlt => ?_)
    exact hlater n (by omega) (by omega)
  | negate entered _ negated ih =>
    rw [Expression.size] at hlater
    refine .negate (by rwa [hlater _ (by omega) (by omega)]) (ih fun n hle hlt => ?_) negated
    exact hlater n (by omega) (by omega)

theorem Operator.yields_of_exact? {operator : Operator} {left right value : Int}
    (h : operator.exact? left right = some value) : operator.Yields left right value := by
  cases operator with
  | add => exact (Option.some.inj h).symm
  | sub => exact (Option.some.inj h).symm
  | mul => exact (Option.some.inj h).symm
  | div =>
    change (if right = 0 then none else some (left.tdiv right)) = some value at h
    split at h
    · cases h
    · next hright => exact ⟨hright, (Option.some.inj h).symm⟩

theorem Operator.yields_of_apply {operator : Operator} {left right value : Int64}
    (h : operator.apply left right = .ok value) :
    operator.Yields left.toInt right.toInt value.toInt := by
  unfold apply at h
  split at h
  · cases h
  · next exact hexact =>
    split at h
    · cases h
    · next hnarrow =>
      cases h
      rw [narrow?_eq_some_iff.mp hnarrow]
      exact yields_of_exact? hexact

theorem toInt_of_negated {value result : Int64} (h : negated value = .ok result) :
    result.toInt = -value.toInt := by
  unfold negated at h
  split at h
  · cases h
  · next hnarrow =>
    cases h
    exact narrow?_eq_some_iff.mp hnarrow

namespace Roller

variable {σ : Type} [FaceSource σ] {limits : Limits} {table after : Table σ}

/-- Rolling an expression numbers its nodes from the next one on, enters a value for each of them
and for no other node, and leaves its outcomes behind the trail. -/
theorem rollNodes_explained {expression : Expression} {value : Int64}
    (h : rollNodes limits expression table = .ok value after) :
    after.nodes = table.nodes + expression.size ∧
      (∀ n, n < table.nodes ∨ after.nodes ≤ n →
        after.subTotals.get? n = table.subTotals.get? n) ∧
      ∃ outcomes, after.trail.toList = table.trail.toList ++ outcomes ∧
        Explained after.subTotals table.nodes table.trail.size expression value outcomes := by
  induction expression generalizing table after value with
  | literal literal =>
    obtain ⟨node, visited, hvisit, h⟩ := bind_eq_ok.mp h
    obtain ⟨rfl, readings, rfl⟩ := visit_eq_ok hvisit
    obtain ⟨rfl, rfl⟩ := enter_eq_ok h
    refine ⟨rfl, fun n hn => ?_, [], (List.append_nil _).symm, .literal ?_⟩
    · dsimp only at hn ⊢
      exact SubTotals.get?_insert_of_ne _ _ (by omega)
    · exact SubTotals.get?_insert_self _ _ _
  | dice term =>
    obtain ⟨node, visited, hvisit, h⟩ := bind_eq_ok.mp h
    obtain ⟨rfl, readings, rfl⟩ := visit_eq_ok hvisit
    obtain ⟨rolled, between, hroll, h⟩ := bind_eq_ok.mp h
    obtain ⟨rfl, rfl⟩ := enter_eq_ok h
    obtain ⟨hvisits, outcomes, htrail, hblock, htotal⟩ := rollTerm_eq_ok hroll
    obtain ⟨hnodes, hsubTotals⟩ := Prod.mk.inj hvisits
    refine ⟨hnodes, fun n hn => ?_, outcomes, htrail, .dice ?_ hblock htotal⟩
    · dsimp only at hn hnodes hsubTotals ⊢
      rw [SubTotals.get?_insert_of_ne _ _ (by omega), hsubTotals]
    · exact SubTotals.get?_insert_self _ _ _
  | binary operator left right ihLeft ihRight =>
    obtain ⟨node, visited, hvisit, h⟩ := bind_eq_ok.mp h
    obtain ⟨rfl, readings, rfl⟩ := visit_eq_ok hvisit
    obtain ⟨leftValue, between, hleft, h⟩ := bind_eq_ok.mp h
    obtain ⟨rightValue, last, hright, h⟩ := bind_eq_ok.mp h
    obtain ⟨result, settled, hsettle, h⟩ := bind_eq_ok.mp h
    obtain ⟨rfl, rfl⟩ := enter_eq_ok h
    obtain ⟨hvalue, rfl⟩ := settle_eq_ok hsettle
    obtain ⟨hnodes, hframe, leftOutcomes, htrail, hleft⟩ := ihLeft hleft
    obtain ⟨hnodes', hframe', rightOutcomes, htrail', hright⟩ := ihRight hright
    have hsize : between.trail.size = table.trail.size + leftOutcomes.length := by
      rw [← Array.length_toList, htrail, List.length_append, Array.length_toList]
    dsimp only at hnodes hframe htrail hleft hsize
    rw [hnodes, hsize] at hright
    refine ⟨?_, fun n hn => ?_, leftOutcomes ++ rightOutcomes, ?_,
      .binary ?_ (hleft.congr fun n hle hlt => ?_) (hright.congr fun n hle hlt => ?_)
        (Operator.yields_of_apply hvalue)⟩
    · rw [hnodes', hnodes, Expression.size]
      omega
    · dsimp only at hn ⊢
      rw [SubTotals.get?_insert_of_ne _ _ (by omega), hframe' n (by omega), hframe n (by omega)]
    · rw [htrail', htrail, List.append_assoc]
    · exact SubTotals.get?_insert_self _ _ _
    · rw [SubTotals.get?_insert_of_ne _ _ (by omega), hframe' n (by omega)]
    · exact SubTotals.get?_insert_of_ne _ _ (by omega)
  | group inner ih =>
    obtain ⟨node, visited, hvisit, h⟩ := bind_eq_ok.mp h
    obtain ⟨rfl, readings, rfl⟩ := visit_eq_ok hvisit
    obtain ⟨innerValue, between, hinner, h⟩ := bind_eq_ok.mp h
    obtain ⟨rfl, rfl⟩ := enter_eq_ok h
    obtain ⟨hnodes, hframe, outcomes, htrail, hinner⟩ := ih hinner
    dsimp only at hnodes hframe hinner
    refine ⟨?_, fun n hn => ?_, outcomes, htrail,
      .group ?_ (hinner.congr fun n hle hlt => ?_)⟩
    · rw [hnodes, Expression.size]
      omega
    · dsimp only at hn ⊢
      rw [SubTotals.get?_insert_of_ne _ _ (by omega), hframe n (by omega)]
    · exact SubTotals.get?_insert_self _ _ _
    · exact SubTotals.get?_insert_of_ne _ _ (by omega)
  | negate inner ih =>
    obtain ⟨node, visited, hvisit, h⟩ := bind_eq_ok.mp h
    obtain ⟨rfl, readings, rfl⟩ := visit_eq_ok hvisit
    obtain ⟨innerValue, between, hinner, h⟩ := bind_eq_ok.mp h
    obtain ⟨result, settled, hsettle, h⟩ := bind_eq_ok.mp h
    obtain ⟨rfl, rfl⟩ := enter_eq_ok h
    obtain ⟨hvalue, rfl⟩ := settle_eq_ok hsettle
    obtain ⟨hnodes, hframe, outcomes, htrail, hinner⟩ := ih hinner
    dsimp only at hnodes hframe hinner
    refine ⟨?_, fun n hn => ?_, outcomes, htrail,
      .negate ?_ (hinner.congr fun n hle hlt => ?_) (toInt_of_negated hvalue)⟩
    · rw [hnodes, Expression.size]
      omega
    · dsimp only at hn ⊢
      rw [SubTotals.get?_insert_of_ne _ _ (by omega), hframe n (by omega)]
    · exact SubTotals.get?_insert_self _ _ _
    · exact SubTotals.get?_insert_of_ne _ _ (by omega)

end Roller

variable {σ : Type} [FaceSource σ] {limits : Limits} {source after : σ}

/-- A roll that succeeds explains its evaluation from the first node and an empty trail, and enters
no values but those of its nodes. -/
theorem Expression.roll_explained {expression : Expression} {evaluation : Evaluation}
    (h : expression.roll limits source = (.ok evaluation, after)) :
    Explained evaluation.subTotals 0 0 expression evaluation.total evaluation.trail.toList ∧
      ∀ n, expression.size ≤ n → evaluation.subTotal? n = none := by
  rw [roll_eq_outcome (nodeCount_le_of_roll h)] at h
  obtain ⟨table, hroll, htrail, hsubTotals, -⟩ := Roller.outcome_eq_ok h
  obtain ⟨hsize, hframe, outcomes, houtcomes, hexplained⟩ := Roller.rollNodes_explained hroll
  refine ⟨?_, fun n hn => ?_⟩
  · rw [hsubTotals, htrail, houtcomes]
    exact hexplained
  · have hbehind : table.nodes ≤ n := by
      rwa [hsize, Table.fresh, Nat.zero_add]
    rw [Evaluation.subTotal?, hsubTotals, hframe n (.inr hbehind)]
    exact SubTotals.get?_empty n

end DiceNotation
