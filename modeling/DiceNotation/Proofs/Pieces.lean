import DiceNotation.Proofs.CanonicalText
import DiceNotation.Proofs.Explained

/-!
# The pieces of a shown roll

A roll is shown as its canonical text with a list behind each dice term, the dice terms being
numbered as they are in an evaluation. No bracket belongs to a canonical text, so the lists can be
taken out again.
-/
namespace DiceNotation

/-- A piece of a canonical text: a dice term with the number of its node, or what is between. -/
inductive Piece
  | plain (text : String)
  | dice (node : Nat) (term : DiceTerm)

namespace Piece

def text : Piece → String
  | plain text => text
  | dice _ term => term.text

/-- A dice term is shown with the list of its entries. -/
def shown (entries : Nat → List String) : Piece → String
  | plain text => text
  | dice node term => term.text ++ " " ++ ("[" ++ ", ".intercalate (entries node) ++ "]")

/-- A dice term is followed by the text for its node. -/
def filled (dice : Nat → String) : Piece → String
  | plain text => text
  | .dice node term => term.text ++ " " ++ dice node

theorem filled_lists (entries : Nat → List String) :
    filled (fun node => "[" ++ ", ".intercalate (entries node) ++ "]") = shown entries := by
  funext piece
  cases piece <;> rfl

def dice? : Piece → Option (Nat × DiceTerm)
  | plain _ => none
  | dice node term => some (node, term)

end Piece

/-- The pieces of the text of an expression, whose nodes are numbered from the given one. -/
def Expression.pieces (node : Nat) : Expression → List Piece
  | literal value => [.plain (toString value)]
  | dice term => [.dice node term]
  | binary operator left right =>
    left.pieces (node + 1) ++
      .plain s!" {operator} " :: right.pieces (node + 1 + left.size)
  | group inner => .plain "(" :: inner.pieces (node + 1) ++ [.plain ")"]
  | negate inner => .plain "-" :: inner.pieces (node + 1)

namespace Expression

theorem join_pieces (node : Nat) (expression : Expression) :
    String.join ((expression.pieces node).map Piece.text) = expression.text := by
  induction expression generalizing node with
  | literal value | dice term => simp [pieces, text, Piece.text]
  | binary operator left right ihLeft ihRight =>
    simp [pieces, text, Piece.text, ihLeft, ihRight, String.append_assoc]
  | group inner ih => simp [pieces, text, Piece.text, ih, String.append_assoc]
  | negate inner ih => simp [pieces, text, Piece.text, ih]

/-- The dice terms are found in the text in the order of their nodes. -/
theorem filterMap_dice?_pieces (node : Nat) (expression : Expression) :
    (expression.pieces node).filterMap Piece.dice? = expression.diceTerms node := by
  induction expression generalizing node with
  | literal value | dice term => rfl
  | binary operator left right ihLeft ihRight =>
    rw [pieces, List.filterMap_append, ihLeft, diceTerms_binary, ← ihRight]
    rfl
  | group inner ih =>
    change ((_ :: inner.pieces (node + 1)) ++ _).filterMap _ = _
    rw [List.filterMap_append, List.filterMap_cons_none rfl, ih]
    exact List.append_nil _
  | negate inner ih => exact ih (node + 1)

end Expression

namespace Rolled

theorem annotated_binary (dice : Nat → String) (operator : Operator) (left right : Expression)
    (node : Nat) :
    (annotated dice (.binary operator left right)).run node =
      (((annotated dice left).run (node + 1)).1 ++ s!" {operator} " ++
          ((annotated dice right).run ((annotated dice left).run (node + 1)).2).1,
        ((annotated dice right).run ((annotated dice left).run (node + 1)).2).2) := rfl

theorem annotated_group (dice : Nat → String) (inner : Expression) (node : Nat) :
    (annotated dice (.group inner)).run node =
      ("(" ++ ((annotated dice inner).run (node + 1)).1 ++ ")",
        ((annotated dice inner).run (node + 1)).2) := rfl

theorem annotated_negate (dice : Nat → String) (inner : Expression) (node : Nat) :
    (annotated dice (.negate inner)).run node =
      ("-" ++ ((annotated dice inner).run (node + 1)).1,
        ((annotated dice inner).run (node + 1)).2) := rfl

/-- An evaluation and its text number the nodes alike. -/
theorem run_annotated (dice : Nat → String) (expression : Expression) (node : Nat) :
    (annotated dice expression).run node =
      (String.join ((expression.pieces node).map (Piece.filled dice)),
        node + expression.size) := by
  induction expression generalizing node with
  | literal value | dice term =>
    refine Prod.ext ?_ rfl
    rw [Expression.pieces, List.map_singleton]
    exact (String.empty_append ..).symm
  | binary operator left right ihLeft ihRight =>
    rw [annotated_binary, ihLeft, ihRight, Expression.size, Expression.pieces]
    refine Prod.ext ?_ ?_
    · simp [Piece.filled, String.append_assoc]
    · dsimp only
      omega
  | group inner ih =>
    rw [annotated_group, ih, Expression.size, Expression.pieces]
    refine Prod.ext ?_ ?_
    · simp [Piece.filled, String.append_assoc]
    · dsimp only
      omega
  | negate inner ih =>
    rw [annotated_negate, ih, Expression.size, Expression.pieces]
    refine Prod.ext ?_ ?_
    · simp [Piece.filled]
    · dsimp only
      omega

end Rolled

/-- A text without its lists and the spaces in front of them; what is inside a list is left out up
to its end. -/
def withoutLists (inside : Bool) : List Char → List Char
  | [] => []
  | next :: rest =>
    if inside then withoutLists (next != ']') rest
    else if next = ' ' ∧ rest.head? = some '[' then withoutLists true rest
    else next :: withoutLists false rest

theorem withoutLists_inside {inner : List Char} (h : ']' ∉ inner) (rest : List Char) :
    withoutLists true (inner ++ ']' :: rest) = withoutLists false rest := by
  induction inner with
  | nil => simp [withoutLists]
  | cons next inner ih =>
    rw [List.mem_cons, not_or] at h
    have hnext : (next != ']') = true := bne_iff_ne.mpr (Ne.symm h.1)
    simp only [List.cons_append, withoutLists, if_pos, hnext, ih h.2]

theorem head?_append_ne {text rest : List Char} (htext : '[' ∉ text)
    (hrest : rest.head? ≠ some '[') : (text ++ rest).head? ≠ some '[' := by
  cases text with
  | nil => exact hrest
  | cons next text =>
    rintro ⟨⟩
    exact htext (.head _)

theorem withoutLists_append {text rest : List Char} (htext : '[' ∉ text)
    (hrest : rest.head? ≠ some '[') :
    withoutLists false (text ++ rest) = text ++ withoutLists false rest := by
  induction text with
  | nil => rfl
  | cons next text ih =>
    have htext' : '[' ∉ text := fun h => htext (.tail _ h)
    have hnext : ¬(next = ' ' ∧ (text ++ rest).head? = some '[') := fun h =>
      head?_append_ne htext' hrest h.2
    rw [List.cons_append, withoutLists, if_neg Bool.false_ne_true, if_neg hnext, ih htext']
    rfl

theorem withoutLists_list {inner : List Char} (h : ']' ∉ inner) (rest : List Char) :
    withoutLists false (' ' :: '[' :: (inner ++ ']' :: rest)) = withoutLists false rest := by
  have hopen : ']' ∉ '[' :: inner := by simp [h]
  rw [withoutLists, if_neg Bool.false_ne_true, if_pos ⟨rfl, rfl⟩, ← List.cons_append]
  exact withoutLists_inside hopen rest

theorem withoutLists_of_notMem {text : List Char} (h : '[' ∉ text) :
    withoutLists false text = text := by
  have happend := withoutLists_append h (by simp : ([] : List Char).head? ≠ some '[')
  simpa [withoutLists] using happend

/-- The lists can be taken out, as no piece has a bracket and no list one before its end. -/
theorem withoutLists_pieces {entries : Nat → List String} {pieces : List Piece} {rest : List Char}
    (hpieces : ∀ piece ∈ pieces, '[' ∉ piece.text.toList)
    (hentries : ∀ node, ']' ∉ (", ".intercalate (entries node)).toList)
    (hrest : '[' ∉ rest) :
    ((pieces.flatMap fun piece => (piece.shown entries).toList) ++ rest).head? ≠ some '[' ∧
      withoutLists false ((pieces.flatMap fun piece => (piece.shown entries).toList) ++ rest) =
        (pieces.flatMap fun piece => piece.text.toList) ++ rest := by
  have hhead : rest.head? ≠ some '[' := fun h => hrest (List.mem_of_mem_head? h)
  induction pieces with
  | nil =>
    simp only [List.flatMap_nil, List.nil_append]
    exact ⟨hhead, withoutLists_of_notMem hrest⟩
  | cons piece pieces ih =>
    obtain ⟨hpiece, hpieces⟩ := List.forall_mem_cons.mp hpieces
    obtain ⟨hhead, hothers⟩ := ih hpieces
    rw [List.flatMap_cons, List.flatMap_cons, List.append_assoc, List.append_assoc, ← hothers]
    generalize (pieces.flatMap fun piece => (piece.shown entries).toList) ++ rest = others at hhead
    cases piece with
    | plain text => exact ⟨head?_append_ne hpiece hhead, withoutLists_append hpiece hhead⟩
    | dice node term =>
      have hshown : ((Piece.dice node term).shown entries).toList ++ others = term.text.toList ++
          ' ' :: '[' :: ((", ".intercalate (entries node)).toList ++ ']' :: others) := by
        simp [Piece.shown]
      have hterm : '[' ∉ term.text.toList := hpiece
      rw [hshown]
      refine ⟨head?_append_ne hterm (by simp), ?_⟩
      rw [withoutLists_append hterm (by simp), withoutLists_list (hentries node)]
      rfl

section Brackets

theorem notMem_toDigits {character : Char} (h : character.isDigit = false) (number : Nat) :
    character ∉ Nat.toDigits 10 number := by
  intro hmem
  have hdigit := Nat.isDigit_of_mem_toDigits (by decide) (by decide) hmem
  rw [h] at hdigit
  cases hdigit

theorem notMem_toString_word {character : Char} (h : character.isDigit = false) (word : UInt32) :
    character ∉ (toString word).toList := by
  rw [toList_word]
  exact notMem_toDigits h word.toNat

theorem bracket_notMem_literal (value : Int64) : '[' ∉ (toString value).toList := by
  change '[' ∉ (toString value.toInt).toList
  cases value.toInt with
  | ofNat number =>
    change '[' ∉ (Nat.repr number).toList
    rw [Nat.toList_repr]
    exact notMem_toDigits rfl number
  | negSucc number =>
    change '[' ∉ ("-" ++ Nat.repr (number + 1)).toList
    simp [notMem_toDigits]

theorem bracket_notMem_condition (condition : Condition) : '[' ∉ condition.text.toList := by
  have hsymbol : '[' ∉ condition.comparison.symbol.toList := by
    cases condition.comparison <;> decide
  simp [Condition.text, hsymbol, bracket_notMem_literal]

theorem bracket_notMem_modifier (modifier : Modifier) : '[' ∉ modifier.text.toList := by
  cases modifier with
  | keep rank amount | drop rank amount =>
    cases rank <;> simp [Modifier.text, Rank.letter, notMem_toString_word]
  | reroll condition | rerollOnce condition | explode condition =>
    cases condition <;> simp [Modifier.text, bracket_notMem_condition]

theorem bracket_notMem_term (term : DiceTerm) : '[' ∉ term.text.toList := by
  rw [DiceTerm.toList_text]
  simp [notMem_toDigits, bracket_notMem_modifier]

theorem bracket_notMem_pieces (node : Nat) (expression : Expression) :
    ∀ piece ∈ expression.pieces node, '[' ∉ piece.text.toList := by
  induction expression generalizing node with
  | literal value => simp [Expression.pieces, Piece.text, bracket_notMem_literal]
  | dice term => simp [Expression.pieces, Piece.text, bracket_notMem_term]
  | binary operator left right ihLeft ihRight =>
    have hoperator : '[' ∉ (s!" {operator} ").toList := by cases operator <;> decide
    simp only [Expression.pieces, List.forall_mem_append, List.forall_mem_cons]
    exact ⟨ihLeft (node + 1), hoperator, ihRight (node + 1 + left.size)⟩
  | group inner ih =>
    have hopen : '[' ∉ "(".toList := by decide
    have hclose : '[' ∉ ")".toList := by decide
    simp only [Expression.pieces, List.forall_mem_append, List.forall_mem_cons]
    exact ⟨⟨hopen, ih (node + 1)⟩, hclose, nofun⟩
  | negate inner ih =>
    have hminus : '[' ∉ "-".toList := by decide
    simp only [Expression.pieces, List.forall_mem_cons]
    exact ⟨hminus, ih (node + 1)⟩

theorem notMem_intercalate {character : Char} {separator : String} {entries : List String}
    (hseparator : character ∉ separator.toList)
    (h : ∀ entry ∈ entries, character ∉ entry.toList) :
    character ∉ (separator.intercalate entries).toList := by
  induction entries with
  | nil => simp
  | cons entry entries ih =>
    obtain ⟨hentry, hentries⟩ := List.forall_mem_cons.mp h
    by_cases hlast : entries = []
    · simpa [hlast] using hentry
    · rw [String.intercalate_cons_of_ne_nil hlast]
      simp only [String.toList_append, List.mem_append, not_or]
      exact ⟨⟨hentry, hseparator⟩, ih hentries⟩

end Brackets

theorem withoutLists_join (entries : Nat → List String) (expression : Expression) {rest : String}
    (hentries : ∀ node, ']' ∉ (", ".intercalate (entries node)).toList)
    (hrest : '[' ∉ rest.toList) :
    withoutLists false
        (String.join ((expression.pieces 0).map (Piece.shown entries)) ++ rest).toList =
      (expression.text ++ rest).toList := by
  have hpieces := withoutLists_pieces (bracket_notMem_pieces 0 expression) hentries hrest
  rw [← expression.join_pieces 0, String.toList_append, String.toList_append, String.toList_join,
    String.toList_join, List.flatMap_map, List.flatMap_map, hpieces.2]

end DiceNotation
