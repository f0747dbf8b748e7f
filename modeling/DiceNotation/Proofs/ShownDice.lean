import DiceNotation.Faces.Script
import DiceNotation.Roll.Rolled
import DiceNotation.Proofs.Pieces
import DiceNotation.Proofs.Provenance
import DiceNotation.Proofs.SubTotals

/-!
# The lists of a shown roll

The lists behind the dice terms show the trail from its first die to its last one. What is said of
a die is what happened to it, and the numbers without a suffix add up to the sub-total of the term.
-/
namespace DiceNotation

/-- What an entry says of a die: its face, a mark if it exploded, and a suffix unless it is kept. -/
def Tells (trail : List Outcome) (die : Nat) (outcome : Outcome) (entry : String) : Prop :=
  ∃ mark ∈ ["", "!"], ∃ suffix ∈ ["", "r", "d"],
    entry = toString outcome.value ++ mark ++ suffix ∧
      (mark = "!" ↔ ∃ other ∈ trail, other.explodedFrom = some die) ∧
      (suffix = "r" ↔ ∃ other ∈ trail, other.rerolledFrom = some die) ∧
      (suffix = "" ↔ outcome.kept = true)

/-- The number of an entry that has no suffix. -/
def plainNumber? (entry : String) : Option Nat :=
  if 'r' ∈ entry.toList ∨ 'd' ∈ entry.toList then none
  else some (Nat.ofDigitChars 10 (entry.toList.takeWhile Char.isDigit) 0)

def plainTotal (entries : List String) : Nat := (entries.filterMap plainNumber?).foldl (· + ·) 0

namespace Evaluation

def diceOf (evaluation : Evaluation) (node : Nat) : List (Nat × Outcome) :=
  (Trail.dice evaluation.trail).filter fun die => die.2.term = node

/-- What is shown of a die. -/
def entry (evaluation : Evaluation) (die : Nat × Outcome) : String :=
  (Trail.marks evaluation.trail).die die.1 die.2

def entries (evaluation : Evaluation) (node : Nat) : List String :=
  (evaluation.diceOf node).map evaluation.entry

end Evaluation

theorem Rolled.text_eq_join (expression : Expression) (evaluation : Evaluation) :
    (⟨expression, evaluation⟩ : Rolled).text =
      String.join ((expression.pieces 0).map (Piece.shown evaluation.entries)) ++
        s!" = {evaluation.total}" := by
  have hrun := run_annotated
    (fun node => "[" ++ ", ".intercalate (evaluation.entries node) ++ "]") expression 0
  rw [Piece.filled_lists] at hrun
  exact congrArg (fun shown => shown.1 ++ s!" = {evaluation.total}") hrun

section Entries

variable {terms : List (Nat × DiceTerm)} {trail : Trail} {evaluation : Evaluation}

theorem entry_eq (evaluation : Evaluation) (die : Nat × Outcome) :
    evaluation.entry die = toString die.2.value ++
      (if evaluation.trail.toList.any (·.explodedFrom == some die.1) then "!" else "") ++
      (if evaluation.trail.toList.any (·.rerolledFrom == some die.1) then "r"
        else if die.2.kept then "" else "d") := by
  rw [← Trail.contains_exploded_marks, ← Trail.contains_rerolled_marks]
  rfl

theorem notMem_entry {character : Char} (hdigit : character.isDigit = false)
    (hmark : character ≠ '!') (hreplaced : character ≠ 'r') (hdropped : character ≠ 'd')
    (evaluation : Evaluation) (die : Nat × Outcome) :
    character ∉ (evaluation.entry die).toList := by
  have hword := notMem_toString_word hdigit die.2.value
  simp only [entry_eq, String.toList_append, List.mem_append, not_or]
  refine ⟨⟨hword, ?_⟩, ?_⟩
  · split <;> simp [hmark]
  · split
    · simp [hreplaced]
    · split <;> simp [hdropped]

/-- A die that is replaced is never kept, so that one suffix can tell of both. -/
theorem tells_entry (h : Blocks 0 terms evaluation.trail.toList) {die : Nat} {outcome : Outcome}
    (hdie : evaluation.trail.toList[die]? = some outcome) :
    Tells evaluation.trail.toList die outcome (evaluation.entry (die, outcome)) := by
  have hany (link : Outcome → Option Nat) :
      (∃ other ∈ evaluation.trail.toList, link other = some die) ↔
        (evaluation.trail.toList.any fun other => link other == some die) = true := by
    simp only [List.any_eq_true, beq_iff_eq]
  have hreplaced : evaluation.trail.toList.any (·.rerolledFrom == some die) = true →
      outcome.kept = false := by
    rw [← hany]
    intro hother
    refine h.replaced hdie ?_
    rw [Nat.zero_add]
    exact List.mem_filterMap.mpr hother
  rw [Tells, entry_eq, hany, hany]
  generalize evaluation.trail.toList.any (·.explodedFrom == some die) = exploded
  generalize evaluation.trail.toList.any (·.rerolledFrom == some die) = rerolled at hreplaced
  refine ⟨_, ?_, _, ?_, rfl, ?_, ?_, ?_⟩
  · cases exploded <;> simp
  · cases rerolled <;> cases outcome.kept <;> simp
  · cases exploded <;> simp
  · cases rerolled <;> cases outcome.kept <;> simp
  · cases rerolled with
    | true => simp [hreplaced rfl]
    | false => cases outcome.kept <;> simp

/-- The suffix is told from the face and the mark, as it alone is a letter. -/
theorem plainNumber?_of_tells {trail : List Outcome} {die : Nat} {outcome : Outcome}
    {entry : String} (h : Tells trail die outcome entry) :
    plainNumber? entry = if outcome.kept then some outcome.value.toNat else none := by
  obtain ⟨mark, hmark, suffix, hsuffix, rfl, -, -, hkept⟩ := h
  cases hkept' : outcome.kept with
  | true =>
    obtain rfl := hkept.mpr hkept'
    have hr := notMem_toString_word (rfl : 'r'.isDigit = false) outcome.value
    have hd := notMem_toString_word (rfl : 'd'.isDigit = false) outcome.value
    have hdigits : ∀ digit ∈ (toString outcome.value).toList, digit.isDigit = true := by
      rw [toList_word]
      exact fun _ => Nat.isDigit_of_mem_toDigits (by decide) (by decide)
    have hmark' : 'r' ∉ mark.toList ∧ 'd' ∉ mark.toList ∧
        ∀ next ∈ mark.toList.head?, next.isDigit = false := by
      simp only [List.mem_cons, List.not_mem_nil, or_false] at hmark
      rcases hmark with rfl | rfl <;> simp
    have hnumber : Nat.ofDigitChars 10 (toString outcome.value).toList 0 = outcome.value.toNat := by
      rw [toList_word, Nat.ofDigitChars_ten_toDigits]
    rw [plainNumber?, if_neg (by simp [hr, hd, hmark']), String.append_empty, String.toList_append,
      takeWhile_append_of_stops hdigits hmark'.2.2, hnumber, if_pos rfl]
  | false =>
    have hsuffix' : suffix = "r" ∨ suffix = "d" := by
      have hne : suffix ≠ "" := fun h => Bool.false_ne_true (hkept' ▸ hkept.mp h)
      simpa [hne] using hsuffix
    rw [plainNumber?, if_pos ?_]
    · rfl
    · rcases hsuffix' with rfl | rfl <;> simp

end Entries

def placedFrom (start : Nat) (outcomes : List Outcome) : List (Nat × Outcome) :=
  (outcomes.zipIdx start).map fun (outcome, die) => (die, outcome)

theorem placedFrom_append (start : Nat) (outcomes added : List Outcome) :
    placedFrom start (outcomes ++ added) =
      placedFrom start outcomes ++ placedFrom (start + outcomes.length) added := by
  rw [placedFrom, List.zipIdx_append, List.map_append]
  rfl

theorem mem_placedFrom {start : Nat} {outcomes : List Outcome} {die : Nat × Outcome}
    (h : die ∈ placedFrom start outcomes) : die.2 ∈ outcomes := by
  obtain ⟨⟨outcome, place⟩, hmem, rfl⟩ := List.mem_map.mp h
  exact List.fst_mem_of_mem_zipIdx hmem

theorem ofTerm_append (node : Nat) (dice others : List (Nat × Outcome)) :
    Trail.ofTerm (dice ++ others) node = Trail.ofTerm dice node ++ Trail.ofTerm others node :=
  List.filter_append dice others

theorem Blocks.flatMap_ofTerm {start : Nat} {terms : List (Nat × DiceTerm)}
    {outcomes : List Outcome} (h : Blocks start terms outcomes)
    (hnodup : (terms.map Prod.fst).Nodup) :
    (terms.flatMap fun term => Trail.ofTerm (placedFrom start outcomes) term.1) =
      placedFrom start outcomes := by
  induction h with
  | nil => rfl
  | @cons start node term block terms outcomes first others ih =>
    obtain ⟨hnode, hterms⟩ := List.nodup_cons.mp hnodup
    have hblock : ∀ die ∈ placedFrom start block, die.2.term = node := by
      intro die hdie
      obtain ⟨j, hj⟩ := List.mem_iff_getElem?.mp (mem_placedFrom hdie)
      exact (first.placed j die.2 hj).term_eq
    have hown : Trail.ofTerm (placedFrom start block) node = placedFrom start block :=
      List.filter_eq_self.mpr fun die hdie => decide_eq_true (hblock die hdie)
    have hlater : Trail.ofTerm (placedFrom (start + block.length) outcomes) node = [] := by
      refine List.filter_eq_nil_iff.mpr fun die hdie hterm => hnode ?_
      rw [← of_decide_eq_true hterm]
      exact others.term_mem (mem_placedFrom hdie)
    have hearlier : ∀ term ∈ terms, Trail.ofTerm (placedFrom start block) term.1 = [] := by
      refine fun term hterm => List.filter_eq_nil_iff.mpr fun die hdie heq => hnode ?_
      rw [← hblock die hdie, of_decide_eq_true heq]
      exact List.mem_map.mpr ⟨term, hterm, rfl⟩
    have hrest : (terms.flatMap fun term => Trail.ofTerm (placedFrom start block ++
        placedFrom (start + block.length) outcomes) term.1) =
          placedFrom (start + block.length) outcomes := by
      rw [← ih hterms]
      refine List.flatMap_congr fun term hterm => ?_
      rw [ofTerm_append, hearlier term hterm, ih hterms, List.nil_append]
    rw [placedFrom_append, List.flatMap_cons, ofTerm_append, hown, hlater, List.append_nil, hrest]

theorem map_snd_diceOf (evaluation : Evaluation) (node : Nat) :
    (evaluation.diceOf node).map Prod.snd = outcomesOf node evaluation.trail.toList := by
  have houtcomes : (placedFrom 0 evaluation.trail.toList).map Prod.snd =
      evaluation.trail.toList := by
    rw [placedFrom, List.map_map]
    exact List.zipIdx_map_fst 0 _
  conv_rhs => rw [← houtcomes, outcomesOf, List.filter_map]
  rfl

theorem plainTotal_entries {evaluation : Evaluation} {node : Nat}
    (h : ∀ die ∈ evaluation.diceOf node,
      Tells evaluation.trail.toList die.1 die.2 (evaluation.entry die)) :
    plainTotal (evaluation.entries node) =
      keptTotal (outcomesOf node evaluation.trail.toList) := by
  have hnumbers : (evaluation.entries node).filterMap plainNumber? =
      (keptFaces (outcomesOf node evaluation.trail.toList)).map UInt32.toNat := by
    calc (evaluation.entries node).filterMap plainNumber?
        = (evaluation.diceOf node).filterMap fun die => plainNumber? (evaluation.entry die) :=
          List.filterMap_map
      _ = (evaluation.diceOf node).filterMap fun die =>
            if die.2.kept then some die.2.value.toNat else none :=
          List.filterMap_congr fun die hdie => plainNumber?_of_tells (h die hdie)
      _ = ((evaluation.diceOf node).map Prod.snd).filterMap fun outcome =>
            if outcome.kept then some outcome.value.toNat else none := by
        rw [List.filterMap_map]
        rfl
      _ = (keptFaces (outcomesOf node evaluation.trail.toList)).map UInt32.toNat := by
        rw [map_snd_diceOf, keptFaces, List.map_map, ← List.filterMap_eq_map,
          List.filterMap_filter]
        rfl
  rw [plainTotal, hnumbers, List.foldl_map]
  rfl

theorem Rolled.withoutLists_text (expression : Expression) (evaluation : Evaluation) :
    withoutLists false (⟨expression, evaluation⟩ : Rolled).text.toList =
      (expression.text ++ s!" = {evaluation.total}").toList := by
  have hentries (node : Nat) : ']' ∉ (", ".intercalate (evaluation.entries node)).toList := by
    refine notMem_intercalate (by decide) fun entry hentry => ?_
    obtain ⟨die, -, rfl⟩ := List.mem_map.mp hentry
    exact notMem_entry (by decide) (by decide) (by decide) (by decide) evaluation die
  have htotal : '[' ∉ (s!" = {evaluation.total}").toList := by
    change '[' ∉ (" = " ++ toString evaluation.total).toList
    simp [bracket_notMem_literal]
  rw [text_eq_join]
  exact withoutLists_join evaluation.entries expression hentries htotal

variable {σ : Type} [FaceSource σ] {limits : Limits} {source after : σ}

/-- The text of a roll explains it. It is the canonical text in pieces with a list behind each dice
term, in pre-order; the lists together show the trail, and tell the truth about each die; the
numbers without a suffix add up to the sub-total of their term; and without its lists the text says
the expression and the total. -/
theorem Expression.rolled_text {expression : Expression} {evaluation : Evaluation}
    (h : expression.roll limits source = (.ok evaluation, after)) :
    (⟨expression, evaluation⟩ : Rolled).text =
      String.join ((expression.pieces 0).map (Piece.shown evaluation.entries)) ++
        s!" = {evaluation.total}" ∧
    String.join ((expression.pieces 0).map Piece.text) = expression.text ∧
    (expression.pieces 0).filterMap Piece.dice? = expression.diceTerms 0 ∧
    (expression.diceTerms 0).flatMap (fun term => evaluation.diceOf term.1) =
      Trail.dice evaluation.trail ∧
    (∀ die ∈ Trail.dice evaluation.trail,
      Tells evaluation.trail.toList die.1 die.2 (evaluation.entry die)) ∧
    (∀ term ∈ expression.diceTerms 0, ∃ total, evaluation.subTotal? term.1 = some total ∧
      total.toInt = plainTotal (evaluation.entries term.1)) ∧
    withoutLists false (⟨expression, evaluation⟩ : Rolled).text.toList =
      (expression.text ++ s!" = {evaluation.total}").toList := by
  obtain ⟨hexplained, -⟩ := expression.roll_explained h
  have hblocks := hexplained.blocks
  have htells : ∀ die ∈ Trail.dice evaluation.trail,
      Tells evaluation.trail.toList die.1 die.2 (evaluation.entry die) := by
    intro die hdie
    obtain ⟨⟨outcome, place⟩, hmem, rfl⟩ := List.mem_map.mp hdie
    exact tells_entry hblocks (List.mk_mem_zipIdx_iff_getElem?.mp hmem)
  refine ⟨Rolled.text_eq_join expression evaluation, expression.join_pieces 0,
    filterMap_dice?_pieces 0 expression, hblocks.flatMap_ofTerm (nodup_diceTerms 0 expression),
    htells, ?_, ?_⟩
  · rintro ⟨node, term⟩ hterm
    obtain ⟨total, hentered, htotal⟩ :=
      hexplained.accounted (mem_numbered_of_mem_diceTerms hterm)
    refine ⟨total, hentered, ?_⟩
    rw [htotal, plainTotal_entries fun die hdie => htells die (List.mem_filter.mp hdie).1]
  · exact Rolled.withoutLists_text expression evaluation

/-- A die is replaced in the first list, and one explodes in the second. -/
theorem Expression.rolled_text_of_reroll_and_explosion :
    (binary .sub (dice ⟨2, 6, [.reroll none]⟩) (dice ⟨1, 6, [.explode none]⟩)).roll {}
        (Script.ofList [1, 6, 3, 6, 2]) =
      (.ok ⟨1, #[⟨1, 6, 1, false, none, none⟩, ⟨1, 6, 6, true, none, none⟩,
        ⟨1, 6, 3, true, some 0, none⟩, ⟨2, 6, 6, true, none, none⟩,
        ⟨2, 6, 2, true, none, some 3⟩], ⟨[(0, 1), (1, 9), (2, 8)], by decide⟩⟩,
        ⟨#[1, 6, 3, 6, 2], 5⟩) ∧
    (⟨binary .sub (dice ⟨2, 6, [.reroll none]⟩) (dice ⟨1, 6, [.explode none]⟩), ⟨1,
        #[⟨1, 6, 1, false, none, none⟩, ⟨1, 6, 6, true, none, none⟩,
          ⟨1, 6, 3, true, some 0, none⟩, ⟨2, 6, 6, true, none, none⟩,
          ⟨2, 6, 2, true, none, some 3⟩], ⟨[(0, 1), (1, 9), (2, 8)], by decide⟩⟩⟩ : Rolled).text =
      "2d6r [1r, 6, 3] - 1d6! [6!, 2] = 1" := by
  have h : (binary .sub (dice ⟨2, 6, [.reroll none]⟩) (dice ⟨1, 6, [.explode none]⟩)).roll {}
      (Script.ofList [1, 6, 3, 6, 2]) =
      (.ok ⟨1, #[⟨1, 6, 1, false, none, none⟩, ⟨1, 6, 6, true, none, none⟩,
        ⟨1, 6, 3, true, some 0, none⟩, ⟨2, 6, 6, true, none, none⟩,
        ⟨2, 6, 2, true, none, some 3⟩], ⟨[(0, 1), (1, 9), (2, 8)], by decide⟩⟩,
        ⟨#[1, 6, 3, 6, 2], 5⟩) := by
    decide +kernel
  refine ⟨h, (rolled_text h).1.trans ?_⟩
  have hentries (evaluation : Evaluation) : evaluation.entries = _ :=
    funext fun node => List.map_congr_left fun die _ => entry_eq evaluation die
  rw [hentries]
  decide +kernel

end DiceNotation
