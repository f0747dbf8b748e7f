import DiceNotation.Faces.Script
import DiceNotation.Roll.Rolled
import DiceNotation.Proofs.NodeCalls
import DiceNotation.Proofs.Pieces
import DiceNotation.Proofs.Underway

/-!
# Counting nodes

The nodes of an expression are counted in four ways: from a list of pending trees, by the parser
before it builds them, by an evaluation and by its text. All of them count every node once, and the
last two come to the dice terms under the same numbers.
-/
namespace DiceNotation

namespace Expression

def children : Expression → List Expression
  | literal _ | dice _ => []
  | binary _ left right => [left, right]
  | group inner | negate inner => [inner]

/-- So many nodes of an expression are counted, and these trees are pending. A turn may take any of
the pending trees, and leave its children anywhere among the others. -/
inductive Counting (expression : Expression) : Nat → List Expression → Prop
  | start : Counting expression 0 [expression]
  | turn {count : Nat} {pending rest later : List Expression} {tree : Expression}
      (counted : Counting expression count pending) (taken : pending.Perm (tree :: rest))
      (left : later.Perm (tree.children ++ rest)) : Counting expression (count + 1) later

theorem sizes_perm {trees others : List Expression} (h : trees.Perm others) :
    sizes trees = sizes others := by
  induction h with
  | nil => rfl
  | cons tree _ ih => rw [sizes, sizes, ih]
  | swap tree other rest =>
    simp only [sizes]
    omega
  | trans _ _ ih ih' => exact ih.trans ih'

theorem sizes_append (trees others : List Expression) :
    sizes (trees ++ others) = sizes trees + sizes others := by
  induction trees with
  | nil => exact (Nat.zero_add _).symm
  | cons tree trees ih =>
    rw [List.cons_append, sizes, sizes, ih]
    omega

theorem size_eq_children (tree : Expression) : tree.size = sizes tree.children + 1 := by
  cases tree <;> simp [size, children, sizes]

theorem sizes_eq_zero_iff {trees : List Expression} : sizes trees = 0 ↔ trees = [] := by
  cases trees with
  | nil => simp [sizes]
  | cons tree rest =>
    have hpos := tree.size_pos
    simp only [sizes, reduceCtorEq, iff_false]
    omega

variable {expression : Expression} {count : Nat} {pending : List Expression}

/-- What is counted and what is pending make up the expression, whichever trees are taken. -/
theorem Counting.count_add_sizes (h : Counting expression count pending) :
    count + sizes pending = expression.size := by
  induction h with
  | start => simp [sizes]
  | @turn count pending rest later tree _ taken left ih =>
    rw [sizes_perm taken, sizes, size_eq_children] at ih
    rw [sizes_perm left, sizes_append]
    omega

theorem Counting.countPending_eq (h : Counting expression count pending) :
    countPending count pending = expression.nodeCount := by
  rw [Expression.countPending_eq, h.count_add_sizes, nodeCount_eq_size]

/-- The count is done when nothing is pending, which it is after as many turns as there are nodes,
and not before. -/
theorem Counting.pending_eq_nil_iff (h : Counting expression count pending) :
    pending = [] ↔ count = expression.nodeCount := by
  have hcount := h.count_add_sizes
  rw [← sizes_eq_zero_iff, nodeCount_eq_size]
  omega

theorem Counting.exists_turn (h : Counting expression count pending) (hpending : pending ≠ []) :
    ∃ later, Counting expression (count + 1) later := by
  obtain ⟨tree, rest, rfl⟩ := List.exists_cons_of_ne_nil hpending
  exact ⟨_, h.turn (.refl _) (.refl _)⟩

end Expression

/-- What rolling a dice term uses and changes: the source of faces, and the trail. -/
def Table.tray {σ : Type} (table : Table σ) : σ × Trail := (table.source, table.trail)

namespace Roller

variable {σ : Type} [FaceSource σ] {limits : Limits} {terms : List (Nat × DiceTerm)}

/-- Dice terms are rolled one after the other, each under the number of its node. From one to the
next, neither the source nor the trail changes. -/
inductive Rolls (limits : Limits) : List (Nat × DiceTerm) → Table σ → Table σ → Prop
  | done {table after : Table σ} (same : after.tray = table.tray) : Rolls limits [] table after
  | roll {table between rolled after : Table σ} {node : Nat} {term : DiceTerm} {value : Int64}
      {terms : List (Nat × DiceTerm)} (same : between.tray = table.tray)
      (rolls : rollTerm limits node term between = .ok value rolled)
      (rest : Rolls limits terms rolled after) : Rolls limits ((node, term) :: terms) table after

theorem Rolls.append {table between after : Table σ} {others : List (Nat × DiceTerm)}
    (h : Rolls limits terms table between) (h' : Rolls limits others between after) :
    Rolls limits (terms ++ others) table after := by
  induction h with
  | done same =>
    cases h' with
    | done same' => exact .done (same'.trans same)
    | roll same' rolls rest => exact .roll (same'.trans same) rolls rest
  | roll same rolls _ ih => exact .roll same rolls (ih h')

theorem Rolls.congr {table start last after : Table σ} (h : Rolls limits terms start last)
    (hstart : start.tray = table.tray) (hlast : after.tray = last.tray) :
    Rolls limits terms table after := by
  have hrolls := (Rolls.done hstart).append (h.append (.done hlast))
  rwa [List.nil_append, List.append_nil] at hrolls

theorem rollNodes_rolls {expression : Expression} {table after : Table σ} {value : Int64}
    (h : rollNodes limits expression table = .ok value after) :
    Rolls limits (expression.diceTerms table.nodes) table after := by
  induction expression generalizing table after value with
  | literal literal =>
    obtain ⟨node, visited, hvisit, h⟩ := bind_eq_ok.mp h
    obtain ⟨rfl, readings, rfl⟩ := visit_eq_ok hvisit
    obtain ⟨-, rfl⟩ := enter_eq_ok h
    exact .done rfl
  | dice term =>
    obtain ⟨node, visited, hvisit, h⟩ := bind_eq_ok.mp h
    obtain ⟨rfl, readings, rfl⟩ := visit_eq_ok hvisit
    obtain ⟨rolled, between, hroll, h⟩ := bind_eq_ok.mp h
    obtain ⟨-, rfl⟩ := enter_eq_ok h
    refine .roll ?_ hroll (.done rfl)
    rfl
  | binary operator left right ihLeft ihRight =>
    obtain ⟨node, visited, hvisit, h⟩ := bind_eq_ok.mp h
    obtain ⟨rfl, readings, rfl⟩ := visit_eq_ok hvisit
    obtain ⟨leftValue, between, hleft, h⟩ := bind_eq_ok.mp h
    obtain ⟨rightValue, last, hright, h⟩ := bind_eq_ok.mp h
    obtain ⟨result, settled, hsettle, h⟩ := bind_eq_ok.mp h
    obtain ⟨-, rfl⟩ := enter_eq_ok h
    obtain ⟨-, rfl⟩ := settle_eq_ok hsettle
    obtain ⟨hnodes, -, -⟩ := rollNodes_explained hleft
    have hothers := ihRight hright
    rw [hnodes] at hothers
    rw [Expression.diceTerms_binary]
    exact ((ihLeft hleft).append hothers).congr rfl rfl
  | group inner ih =>
    obtain ⟨node, visited, hvisit, h⟩ := bind_eq_ok.mp h
    obtain ⟨rfl, readings, rfl⟩ := visit_eq_ok hvisit
    obtain ⟨innerValue, between, hinner, h⟩ := bind_eq_ok.mp h
    obtain ⟨-, rfl⟩ := enter_eq_ok h
    exact (ih hinner).congr rfl rfl
  | negate inner ih =>
    obtain ⟨node, visited, hvisit, h⟩ := bind_eq_ok.mp h
    obtain ⟨rfl, readings, rfl⟩ := visit_eq_ok hvisit
    obtain ⟨innerValue, between, hinner, h⟩ := bind_eq_ok.mp h
    obtain ⟨result, settled, hsettle, h⟩ := bind_eq_ok.mp h
    obtain ⟨-, rfl⟩ := enter_eq_ok h
    obtain ⟨-, rfl⟩ := settle_eq_ok hsettle
    exact (ih hinner).congr rfl rfl

end Roller

namespace Expression

/-- All counts of the nodes of an expression agree. Whichever pending tree is taken next, each turn
counts one node of those that are pending, and nothing is pending just when all are counted. A parse
that gives the expression calls for as many nodes. An evaluation that goes through and a text with
anything shown for the dice number as many nodes, and come to the dice terms in the same order under
the same numbers. -/
theorem counters_agree (expression : Expression) :
    (expression.nodeCount = expression.size ∧
      ∀ count pending, Counting expression count pending →
        countPending count pending = expression.nodeCount ∧
        count + sizes pending = expression.nodeCount ∧
        (pending = [] ↔ count = expression.nodeCount) ∧
        (pending ≠ [] → ∃ later, Counting expression (count + 1) later)) ∧
    (∀ tokens, ofTokens tokens = .ok expression →
      ∃ after, Parser.line ⟨Parser.body tokens, Parser.maxNodes⟩ = .ok (expression, after) ∧
        ∀ calls last,
          Parser.Calls Parser.line ⟨Parser.body tokens, Parser.maxNodes⟩ calls expression last ↔
            calls = expression.nodeCount ∧ last = after) ∧
    (∀ {σ : Type} [FaceSource σ] (limits : Limits) (table after : Table σ) (value : Int64),
      Roller.rollNodes limits expression table = .ok value after →
        after.nodes = table.nodes + expression.nodeCount ∧
        Roller.Rolls limits (expression.diceTerms table.nodes) table after) ∧
    ∀ (dice : Nat → String) (node : Nat),
      (Rolled.annotated dice expression).run node =
        (String.join ((expression.pieces node).map (Piece.filled dice)),
          node + expression.nodeCount) ∧
      (expression.pieces node).filterMap Piece.dice? = expression.diceTerms node := by
  have hsize := expression.nodeCount_eq_size
  refine ⟨⟨hsize, fun count pending h => ?_⟩, fun tokens => Parser.calls_line_iff,
    fun {σ} _ limits table after value h => ?_, fun dice node => ?_⟩
  · have hcount := h.count_add_sizes
    rw [← hsize] at hcount
    exact ⟨h.countPending_eq, hcount, h.pending_eq_nil_iff, h.exists_turn⟩
  · obtain ⟨hnodes, -, -⟩ := Roller.rollNodes_explained h
    rw [hsize]
    exact ⟨hnodes, Roller.rollNodes_rolls h⟩
  · rw [hsize]
    exact ⟨Rolled.run_annotated dice expression node, filterMap_dice?_pieces node expression⟩

/-- A difference, in which the second dice term stands below a minus sign. -/
theorem counters_agree_of_difference :
    (Counting (binary .sub (dice ⟨2, 6, [.reroll none]⟩) (negate (dice ⟨1, 4, []⟩))) 2
        [dice ⟨1, 4, []⟩, dice ⟨2, 6, [.reroll none]⟩] ∧
      countPending 2 [dice ⟨1, 4, []⟩, dice ⟨2, 6, [.reroll none]⟩] = 4) ∧
    (ofTokens ([.number 2, .keyword .die, .number 6, .keyword .reroll, .operator .sub,
        .operator .sub, .keyword .die, .number 4].map (⟨·, 0⟩)) =
        .ok (binary .sub (dice ⟨2, 6, [.reroll none]⟩) (negate (dice ⟨1, 4, []⟩))) ∧
      ∃ after, Parser.Calls Parser.line
        ⟨[.number 2, .keyword .die, .number 6, .keyword .reroll, .operator .sub, .operator .sub,
          .keyword .die, .number 4], Parser.maxNodes⟩ 4
        (binary .sub (dice ⟨2, 6, [.reroll none]⟩) (negate (dice ⟨1, 4, []⟩))) after) ∧
    (∃ after, Roller.rollNodes {}
        (binary .sub (dice ⟨2, 6, [.reroll none]⟩) (negate (dice ⟨1, 4, []⟩)))
        (.fresh (Script.ofList [1, 5, 3, 2])) = .ok 10 after ∧
      after.nodes = 4 ∧
      Roller.Rolls {} [(1, ⟨2, 6, [.reroll none]⟩), (3, ⟨1, 4, []⟩)]
        (.fresh (Script.ofList [1, 5, 3, 2])) after) ∧
    ((Rolled.annotated toString
      (binary .sub (dice ⟨2, 6, [.reroll none]⟩) (negate (dice ⟨1, 4, []⟩)))).run 0).2 = 4 := by
  obtain ⟨⟨hsize, hcounting⟩, hparse, hroll, hshow⟩ :=
    counters_agree (binary .sub (dice ⟨2, 6, [.reroll none]⟩) (negate (dice ⟨1, 4, []⟩)))
  rw [hsize] at hcounting hparse hroll hshow
  have hturns : Counting (binary .sub (dice ⟨2, 6, [.reroll none]⟩) (negate (dice ⟨1, 4, []⟩))) 2
      [dice ⟨1, 4, []⟩, dice ⟨2, 6, [.reroll none]⟩] :=
    .turn (.turn .start (.refl _) (.refl _)) (.swap ..) (.refl _)
  have htokens : ofTokens ([.number 2, .keyword .die, .number 6, .keyword .reroll, .operator .sub,
      .operator .sub, .keyword .die, .number 4].map (⟨·, 0⟩)) =
      .ok (binary .sub (dice ⟨2, 6, [.reroll none]⟩) (negate (dice ⟨1, 4, []⟩))) := by
    decide +kernel
  have hrolled : Roller.rollNodes {}
      (binary .sub (dice ⟨2, 6, [.reroll none]⟩) (negate (dice ⟨1, 4, []⟩)))
      (.fresh (Script.ofList [1, 5, 3, 2])) =
      .ok 10 ⟨⟨#[1, 5, 3, 2], 4⟩, #[⟨1, 6, 1, false, none, none⟩, ⟨1, 6, 5, true, none, none⟩,
          ⟨1, 6, 3, true, some 0, none⟩, ⟨3, 4, 2, true, none, none⟩], 4,
        ⟨[(0, 10), (1, 8), (2, -2), (3, 2)], by decide⟩, 0,
        #[.rolled 1 ⟨2, 6, [.reroll none]⟩ 8, .rolled 3 ⟨1, 4, []⟩ 2]⟩ := by
    decide +kernel
  obtain ⟨last, -, hcalls⟩ := hparse _ htokens
  exact ⟨⟨hturns, (hcounting _ _ hturns).1⟩, ⟨htokens, last, (hcalls 4 last).mpr ⟨rfl, rfl⟩⟩,
    ⟨_, hrolled, hroll _ _ _ _ hrolled⟩, congrArg Prod.snd (hshow toString 0).1⟩

end Expression

end DiceNotation
