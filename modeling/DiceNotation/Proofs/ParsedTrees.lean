import DiceNotation.Proofs.CanonicalText

/-!
# The trees that are parsed

The canonical text of a tree adds no parentheses and writes no number with a sign of its own. So it
stands for that tree just when each operand binds tightly enough for its operator, no number is
negative, and the tree is within the limits of the parser.
-/
namespace DiceNotation

def Modifier.condition? : Modifier → Option Condition
  | keep _ _ | drop _ _ => none
  | reroll condition | rerollOnce condition | explode condition => condition

namespace Expression

def isBinary : Expression → Bool
  | binary _ _ _ => true
  | _ => false

/-- Whether an expression is an addition or a subtraction. -/
def isSum : Expression → Bool
  | binary operator _ _ => operator.additive
  | _ => false

/-- What the notation asks of a node and its operands. -/
def Regular : Expression → Prop
  | literal value => 0 ≤ value.toInt
  | dice term => 1 ≤ term.count.toNat ∧
      ∀ modifier ∈ term.modifiers, ∀ condition ∈ modifier.condition?, 0 ≤ condition.value.toInt
  | binary operator left right =>
    if operator.additive then ¬right.isSum else ¬left.isSum ∧ ¬right.isBinary
  | group _ => True
  | negate inner => ¬inner.isBinary

/-- The nodes of an expression in pre-order, each with the number of groups and minus signs around
it; there are `around` of them around the whole. -/
def nested (around : Nat) : Expression → List (Nat × Expression)
  | literal value => [(around, literal value)]
  | dice term => [(around, dice term)]
  | binary operator left right =>
    (around, binary operator left right) :: (left.nested around ++ right.nested around)
  | group inner => (around, group inner) :: inner.nested (around + 1)
  | negate inner => (around, negate inner) :: inner.nested (around + 1)

/-- The trees that the parser can give. -/
structure Parsable (expression : Expression) : Prop where
  regular : ∀ node ∈ expression.nested 0, node.2.Regular
  nesting : ∀ node ∈ expression.nested 0, node.1 ≤ 127
  nodes : expression.nodeCount ≤ 10000

theorem forall_nested_le_iff (around most : Nat) (expression : Expression) :
    (∀ node ∈ expression.nested around, node.1 ≤ most) ↔ around + expression.depth ≤ most := by
  induction expression generalizing around with
  | literal value | dice term => simp [nested, depth]
  | binary operator left right ihLeft ihRight =>
    simp only [nested, depth, List.forall_mem_cons, List.forall_mem_append, ihLeft, ihRight]
    omega
  | group inner ih | negate inner ih =>
    simp only [nested, depth, List.forall_mem_cons, ih]
    omega

end Expression

namespace Grammar
open Expression

theorem IsCondition.nonneg {text : List Lexeme} {condition : Condition}
    (h : IsCondition text condition) : 0 ≤ condition.value.toInt := by
  cases h with
  | compared _ fits | bare fits => simp [fits]

theorem isCondition_of_nonneg {condition : Condition} (h : 0 ≤ condition.value.toInt) :
    IsCondition condition.lexemes condition :=
  .compared condition.comparison (Int.toNat_of_nonneg h).symm

theorem OrNone.nonneg {text : List Lexeme} {condition : Option Condition}
    (h : OrNone IsCondition text condition) :
    ∀ compared ∈ condition, 0 ≤ compared.value.toInt := by
  cases h with
  | absent => simp
  | present reads => simpa using reads.nonneg

theorem orNone_of_nonneg {condition : Option Condition}
    (h : ∀ compared ∈ condition, 0 ≤ compared.value.toInt) :
    OrNone IsCondition ((condition.map Condition.lexemes).getD []) condition := by
  cases condition with
  | none => exact .absent
  | some compared => exact .present (isCondition_of_nonneg (h compared rfl))

theorem IsModifier.nonneg {text : List Lexeme} {modifier : Modifier}
    (h : IsModifier text modifier) :
    ∀ condition ∈ modifier.condition?, 0 ≤ condition.value.toInt := by
  cases h with
  | reroll reads | rerollOnce reads | explode reads => exact reads.nonneg
  | _ => simp [Modifier.condition?]

theorem isModifier_of_nonneg {modifier : Modifier}
    (h : ∀ condition ∈ modifier.condition?, 0 ≤ condition.value.toInt) :
    IsModifier modifier.lexemes modifier := by
  cases modifier with
  | keep rank amount => exact .keepShort rank rfl
  | drop rank amount => exact .dropShort rank rfl
  | reroll condition => exact .reroll (orNone_of_nonneg h)
  | rerollOnce condition => exact .rerollOnce (orNone_of_nonneg h)
  | explode condition => exact .explode (orNone_of_nonneg h)

theorem AreModifiers.nonneg {text : List Lexeme} {modifiers : List Modifier}
    (h : AreModifiers text modifiers) :
    ∀ modifier ∈ modifiers, ∀ condition ∈ modifier.condition?, 0 ≤ condition.value.toInt := by
  induction h with
  | nil => simp
  | cons head _ ih => exact List.forall_mem_cons.mpr ⟨head.nonneg, ih⟩

theorem areModifiers_of_nonneg {modifiers : List Modifier}
    (h : ∀ modifier ∈ modifiers, ∀ condition ∈ modifier.condition?, 0 ≤ condition.value.toInt) :
    AreModifiers (modifiers.flatMap Modifier.lexemes) modifiers := by
  induction modifiers with
  | nil => exact .nil
  | cons modifier modifiers ih =>
    obtain ⟨hhead, htail⟩ := List.forall_mem_cons.mp h
    exact .cons (isModifier_of_nonneg hhead) (ih htail)

theorem IsTerm.regular {text : List Lexeme} {term : DiceTerm} (h : IsTerm text term) :
    (dice term).Regular := by
  obtain ⟨counts, -, changes⟩ := h
  exact ⟨counts.pos, changes.nonneg⟩

theorem isTerm_of_regular {term : DiceTerm} (h : (dice term).Regular) :
    IsTerm term.lexemes term := by
  obtain ⟨hcount, hmodifiers⟩ := h
  exact .mk (.number hcount rfl) (.number rfl) (areModifiers_of_nonneg hmodifiers)

variable {text : List Lexeme} {expression : Expression}

theorem Derives.not_isBinary (h : Derives .factor text expression) : ¬expression.isBinary := by
  cases h <;> simp [isBinary]

theorem Derives.not_isSum (h : Derives .product text expression) : ¬expression.isSum := by
  cases h with
  | factor inner => cases inner <;> simp [isSum]
  | multiplicative sign kind => simp [isSum, kind]

/-- Every node of what the grammar derives is regular: an operand is derived at a level that has no
operators that bind less. -/
theorem Derives.regular {level : Level} (h : Derives level text expression) (around : Nat) :
    ∀ node ∈ expression.nested around, node.2.Regular := by
  induction h generalizing around with
  | product _ ih | factor _ ih => exact ih around
  | @additive _ _ left right sign kind _ after ihLeft ihRight =>
    have hroot : (binary sign left right).Regular := by
      rw [Regular, if_pos kind]
      exact after.not_isSum
    simp only [nested, List.forall_mem_cons, List.forall_mem_append]
    exact ⟨hroot, ihLeft around, ihRight around⟩
  | @multiplicative _ _ left right sign kind before after ihLeft ihRight =>
    have hroot : (binary sign left right).Regular := by
      rw [Regular, if_neg (by simp [kind])]
      exact ⟨before.not_isSum, after.not_isBinary⟩
    simp only [nested, List.forall_mem_cons, List.forall_mem_append]
    exact ⟨hroot, ihLeft around, ihRight around⟩
  | negate within ih =>
    simp only [nested, List.forall_mem_cons]
    exact ⟨within.not_isBinary, ih (around + 1)⟩
  | dice reads => simpa [nested] using reads.regular
  | literal fits => simp [nested, Regular, fits]
  | group _ ih =>
    simp only [nested, List.forall_mem_cons]
    exact ⟨trivial, ih (around + 1)⟩

/-- The lexemes of the canonical text derive the expression at each level that its own operator
does not rule out. -/
structure Derived (expression : Expression) : Prop where
  sum : Derives .sum expression.lexemes expression
  product : ¬expression.isSum → Derives .product expression.lexemes expression
  factor : ¬expression.isBinary → Derives .factor expression.lexemes expression

theorem Derives.derived_of_factor (h : Derives .factor expression.lexemes expression) :
    Derived expression :=
  ⟨.product (.factor h), fun _ => .factor h, fun _ => h⟩

theorem derived_of_regular {around : Nat}
    (h : ∀ node ∈ expression.nested around, node.2.Regular) : Derived expression := by
  induction expression generalizing around with
  | literal value =>
    have hroot : (literal value).Regular := by simpa [nested] using h
    exact Derives.derived_of_factor (.literal (Int.toNat_of_nonneg hroot).symm)
  | dice term =>
    have hroot : (dice term).Regular := by simpa [nested] using h
    exact Derives.derived_of_factor (.dice (isTerm_of_regular hroot))
  | binary operator left right ihLeft ihRight =>
    simp only [nested, List.forall_mem_cons, List.forall_mem_append] at h
    obtain ⟨hroot, hleft, hright⟩ := h
    have hderivedLeft := ihLeft hleft
    have hderivedRight := ihRight hright
    by_cases kind : operator.additive = true
    · rw [Regular, if_pos kind] at hroot
      have hsum := Derives.additive operator kind hderivedLeft.sum (hderivedRight.product hroot)
      exact ⟨hsum, by simp [isSum, kind], by simp [isBinary]⟩
    · rw [Regular, if_neg kind] at hroot
      have hproduct := Derives.multiplicative operator (by simpa using kind)
        (hderivedLeft.product hroot.1) (hderivedRight.factor hroot.2)
      exact ⟨.product hproduct, fun _ => hproduct, by simp [isBinary]⟩
  | group inner ih =>
    simp only [nested, List.forall_mem_cons] at h
    exact Derives.derived_of_factor (.group (ih h.2).sum)
  | negate inner ih =>
    simp only [nested, List.forall_mem_cons] at h
    exact Derives.derived_of_factor (.negate ((ih h.2).factor h.1))

end Grammar

namespace Expression

theorem parsable_iff_derives {expression : Expression} :
    expression.Parsable ↔ Grammar.Derives .sum expression.lexemes expression ∧
      expression.size ≤ Parser.maxNodes ∧ expression.depth < Parser.maxNesting := by
  constructor
  · rintro ⟨hregular, hnesting, hnodes⟩
    rw [forall_nested_le_iff] at hnesting
    rw [nodeCount_eq_size] at hnodes
    refine ⟨(Grammar.derived_of_regular hregular).sum, hnodes, ?_⟩
    rw [Parser.maxNesting]
    omega
  · rintro ⟨hform, hsize, hdepth⟩
    refine ⟨hform.regular 0, ?_, ?_⟩
    · rw [forall_nested_le_iff]
      rw [Parser.maxNesting] at hdepth
      omega
    · rwa [nodeCount_eq_size]

theorem parsable_of_ofTokens {tokens : List Token} {expression : Expression}
    (h : ofTokens tokens = .ok expression) : expression.Parsable := by
  obtain ⟨hform, hlimits⟩ := Parser.ofTokens_eq_ok_iff.mp h
  exact parsable_iff_derives.mpr ⟨hform.canonical, hlimits⟩

/-- What a text is parsed to is parsed from its tokens. -/
theorem exists_ofTokens_of_parse {text : String} {expression : Expression}
    (h : parse text = .ok expression) : ∃ tokens, ofTokens tokens = .ok expression := by
  unfold parse at h
  split at h
  · cases h
  · next tokens _ =>
    split at h
    · cases h
    · next hparse =>
      cases h
      exact ⟨tokens, hparse⟩

theorem Parsable.parse_text {expression : Expression} (h : expression.Parsable) :
    parse expression.text = .ok expression := by
  obtain ⟨hform, hlimits⟩ := parsable_iff_derives.mp h
  obtain ⟨tokens, htokenize, hbody⟩ := tokenize_text hform
  have hparse : ofTokens tokens = .ok expression := by
    rw [Parser.ofTokens_eq_ok_iff, hbody]
    exact ⟨hform, hlimits⟩
  unfold parse
  rw [htokenize]
  simp only [hparse]

/-- The trees whose canonical text is parsed to themselves are those that can be parsed from any
tokens at all, and they are told by their shape, their numbers and their size. -/
theorem parse_text_eq_ok_iff (expression : Expression) :
    (parse expression.text = .ok expression ↔ expression.Parsable) ∧
      ((∃ tokens, ofTokens tokens = .ok expression) ↔ expression.Parsable) := by
  have hparsed : (∃ tokens, ofTokens tokens = .ok expression) → expression.Parsable := by
    rintro ⟨tokens, h⟩
    exact parsable_of_ofTokens h
  have hself : parse expression.text = .ok expression ↔ expression.Parsable :=
    ⟨fun h => hparsed (exists_ofTokens_of_parse h), Parsable.parse_text⟩
  exact ⟨hself, hparsed, fun h => exists_ofTokens_of_parse h.parse_text⟩

/-- The text of a difference on the right says another tree. -/
example : parse (binary .sub (literal 3) (binary .sub (literal 2) (literal 1))).text =
    .ok (binary .sub (binary .sub (literal 3) (literal 2)) (literal 1)) := by
  decide +kernel

end Expression

end DiceNotation
