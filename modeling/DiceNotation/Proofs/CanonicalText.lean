import Mathlib.Data.List.Basic
import DiceNotation.Line
import DiceNotation.Proofs.ParserComplete
import DiceNotation.Proofs.Reading

/-!
# The canonical text of an expression

The canonical text of what the grammar derives reads as lexemes that derive it again. Words run
together in it only where the longest spelling ends between them.
-/
namespace DiceNotation
open Lexeme

def Condition.lexemes (condition : Condition) : List Lexeme :=
  [.comparison condition.comparison, .number condition.value.toInt.toNat]

def Modifier.lexemes : Modifier → List Lexeme
  | .keep rank amount => [keyword rank.keepKeyword, number amount.toNat]
  | .drop rank amount => [keyword rank.dropKeyword, number amount.toNat]
  | .reroll condition => keyword .reroll :: (condition.map Condition.lexemes).getD []
  | .rerollOnce condition => keyword .rerollOnce :: (condition.map Condition.lexemes).getD []
  | .explode condition => keyword .explode :: (condition.map Condition.lexemes).getD []

def DiceTerm.lexemes (term : DiceTerm) : List Lexeme :=
  number term.count.toNat :: keyword .die :: number term.sides.toNat ::
    term.modifiers.flatMap Modifier.lexemes

/-- What the canonical text of an expression reads as. -/
def Expression.lexemes : Expression → List Lexeme
  | literal value => [number value.toInt.toNat]
  | dice term => term.lexemes
  | binary sign left right => left.lexemes ++ operator sign :: right.lexemes
  | group inner => leftParen :: inner.lexemes ++ [rightParen]
  | negate inner => operator .sub :: inner.lexemes

namespace Grammar

theorem toNat_of_fits {value : Int64} {number : Nat} (fits : value.toInt = number) :
    value.toInt = value.toInt.toNat := by
  rw [fits, Int.toNat_natCast]

theorem IsCondition.canonical {text : List Lexeme} {condition : Condition}
    (h : IsCondition text condition) : IsCondition condition.lexemes condition := by
  cases h with
  | compared comparison fits => exact .compared comparison (toNat_of_fits fits)
  | bare fits => exact .compared .equal (toNat_of_fits fits)

theorem OrNone.canonical {text : List Lexeme} {condition : Option Condition}
    (h : OrNone IsCondition text condition) :
    OrNone IsCondition ((condition.map Condition.lexemes).getD []) condition := by
  cases h with
  | absent => exact .absent
  | present reads => exact .present reads.canonical

theorem IsModifier.canonical {text : List Lexeme} {modifier : Modifier}
    (h : IsModifier text modifier) : IsModifier modifier.lexemes modifier := by
  cases h with
  | keep | keepRanked | keepShort | advantage | disadvantage => exact .keepShort _ rfl
  | drop | dropRanked | dropShort => exact .dropShort _ rfl
  | reroll reads => exact .reroll reads.canonical
  | rerollOnce reads => exact .rerollOnce reads.canonical
  | explode reads => exact .explode reads.canonical

theorem AreModifiers.canonical {text : List Lexeme} {modifiers : List Modifier}
    (h : AreModifiers text modifiers) :
    AreModifiers (modifiers.flatMap Modifier.lexemes) modifiers := by
  induction h with
  | nil => exact .nil
  | cons head _ ih => exact .cons head.canonical ih

theorem IsCount.pos {text : List Lexeme} {count : UInt32} (h : IsCount text count) :
    0 < count.toNat := by
  cases h with
  | one => decide
  | number positive fits => rwa [fits]

theorem IsTerm.canonical {text : List Lexeme} {term : DiceTerm} (h : IsTerm text term) :
    IsTerm term.lexemes term := by
  obtain ⟨counts, faces, changes⟩ := h
  exact .mk (.number counts.pos rfl) (.number rfl) changes.canonical

/-- The lexemes of the canonical text derive the same tree as any others that do. -/
theorem Derives.canonical {level : Level} {text : List Lexeme} {expression : Expression}
    (h : Derives level text expression) : Derives level expression.lexemes expression := by
  induction h with
  | product _ ih => exact .product ih
  | factor _ ih => exact .factor ih
  | additive sign kind _ _ ihleft ihright => exact .additive sign kind ihleft ihright
  | multiplicative sign kind _ _ ihleft ihright => exact .multiplicative sign kind ihleft ihright
  | negate _ ih => exact .negate ih
  | dice reads => exact .dice reads.canonical
  | literal fits => exact .literal (toNat_of_fits fits)
  | group _ ih => exact .group ih

end Grammar

/-- The characters that come after a number or a word in a canonical text. -/
def breakers : List Char := [' ', ')', 'k', 'd', 'r', '!', '=', '<', '>']

def Breaks (text : List Char) : Prop := ∀ next ∈ text.head?, next ∈ breakers

theorem not_isDigit_of_breaks {text : List Char} (h : Breaks text) :
    ∀ next ∈ text.head?, next.isDigit = false := by
  have hbreakers : breakers.all (fun next => !next.isDigit) = true := by decide
  intro next hnext
  simpa using List.all_eq_true.mp hbreakers next (h next hnext)

theorem toDigits_head (value : Nat) :
    ∃ first others, Nat.toDigits 10 value = first :: others ∧ first.isDigit = true := by
  obtain ⟨first, others, hdigits⟩ := List.exists_cons_of_ne_nil (Nat.toDigits_ne_nil (n := value))
  have hmem : first ∈ Nat.toDigits 10 value := hdigits ▸ List.mem_cons_self ..
  exact ⟨first, others, hdigits, Nat.isDigit_of_mem_toDigits (by decide) (by decide) hmem⟩

theorem not_isAlpha_of_isDigit {character : Char} (h : character.isDigit = true) :
    character.isAlpha = false := by
  rw [← Bool.not_eq_true]
  intro halpha
  rw [not_isDigit_of_isAlpha halpha] at h
  cases h

theorem keyword?_eq_none_of_ne {word : List Char}
    (h : ∀ entry ∈ KeywordTable.standard.entries, entry.1 ≠ KeywordTable.lowered word) :
    KeywordTable.standard.keyword? word = none :=
  List.lookup_eq_none_iff.mpr fun entry hentry => bne_iff_ne.mpr (h entry hentry).symm

/-- No spelling goes on with what comes after a reroll without a condition. -/
theorem keyword?_reroll_longer {text : List Char} (h : Breaks text) {length : Nat}
    (hlength : 1 < length) (hle : length ≤ text.length + 1) :
    KeywordTable.standard.keyword? (('r' :: text).take length) = none := by
  have hentries : (breakers.all fun next => KeywordTable.standard.entries.all fun entry =>
      entry.1.take 2 != ['r', next.toLower]) = true := by decide
  obtain ⟨length, rfl⟩ : ∃ length', length = length' + 2 := Nat.exists_eq_add_of_le' hlength
  cases text with
  | nil => simp at hle
  | cons next text =>
    refine keyword?_eq_none_of_ne fun entry hentry heq => ?_
    have hnext := List.all_eq_true.mp hentries next (h next rfl)
    apply bne_iff_ne.mp (List.all_eq_true.mp hnext entry hentry)
    rw [heq]
    rfl

theorem keyword?_rerollOnce_longer {text : List Char} {length : Nat} (hlength : 2 < length)
    (hle : length ≤ text.length + 2) :
    KeywordTable.standard.keyword? (('r' :: 'o' :: text).take length) = none := by
  have hentries : ∀ entry ∈ KeywordTable.standard.entries,
      entry.1.take 2 = ['r', 'o'] → entry.1.length = 2 := by decide
  obtain ⟨length, rfl⟩ : ∃ length', length = length' + 3 := Nat.exists_eq_add_of_le' hlength
  refine keyword?_eq_none_of_ne fun entry hentry heq => ?_
  have htwo := hentries entry hentry (by rw [heq]; rfl)
  rw [heq, KeywordTable.lowered_length, List.length_take, List.length_cons,
    List.length_cons] at htwo
  omega

/-- A text reads as lexemes wherever it starts. -/
def ReadsAs (text : List Char) (lexemes : List Lexeme) : Prop :=
  ∀ offset, ∃ tokens, Lexer.Reads .standard offset text tokens ∧
    tokens.map Token.lexeme = lexemes

namespace ReadsAs

variable {text : List Char} {lexemes : List Lexeme}

theorem done : ReadsAs [] [endOfInput] := fun offset => ⟨_, .done offset, rfl⟩

theorem space (h : ReadsAs text lexemes) : ReadsAs (' ' :: text) lexemes := by
  intro offset
  obtain ⟨tokens, hreads, hlexemes⟩ := h (offset + 1)
  exact ⟨tokens, .blank rfl hreads, hlexemes⟩

theorem read (word : List Char) {lexeme : Lexeme}
    (hread : read? .standard (word ++ text) = some (lexeme, word.length))
    (fits : ∀ value, lexeme = .number value → value < UInt64.size)
    (h : ReadsAs text lexemes) : ReadsAs (word ++ text) (lexeme :: lexemes) := by
  intro offset
  obtain ⟨tokens, hreads, hlexemes⟩ := h (offset + word.length)
  exact ⟨_, .lexeme hread fits hreads, by rw [List.map_cons, hlexemes]⟩

theorem digits {value : Nat} (fits : value < UInt64.size) (hbreaks : Breaks text)
    (h : ReadsAs text lexemes) :
    ReadsAs (Nat.toDigits 10 value ++ text) (.number value :: lexemes) := by
  refine read _ ?_ ?_ h
  · rw [read?_digits Nat.toDigits_ne_nil
      (fun _ hdigit => Nat.isDigit_of_mem_toDigits (by decide) (by decide) hdigit)
      (not_isDigit_of_breaks hbreaks), Nat.ofDigitChars_ten_toDigits]
  · rintro _ ⟨⟩
    exact fits

/-- A whole run of letters that is a spelling. -/
theorem keyword {word : List Char} {keyword : Keyword} (hne : word ≠ [])
    (hword : word.all Char.isAlpha = true)
    (hspelled : KeywordTable.standard.longestPrefix? word = some (keyword, word.length))
    (hnext : ∀ next ∈ text.head?, next.isAlpha = false) (h : ReadsAs text lexemes) :
    ReadsAs (word ++ text) (.keyword keyword :: lexemes) := by
  refine read word (read?_letters hne (List.all_eq_true.mp hword) ?_) nofun h
  have hrun : ([] ++ text).takeWhile Char.isAlpha = [] :=
    takeWhile_append_of_stops (fun _ h => nomatch h) hnext
  rw [List.nil_append] at hrun
  rwa [hrun, List.append_nil]

theorem breaks_takeWhile (hbreaks : Breaks text) : Breaks (text.takeWhile Char.isAlpha) := by
  intro next hnext
  cases text with
  | nil => cases hnext
  | cons first text =>
    by_cases hfirst : first.isAlpha = true
    · rw [List.takeWhile_cons_of_pos hfirst] at hnext
      exact hbreaks next hnext
    · rw [List.takeWhile_cons_of_neg hfirst] at hnext
      cases hnext

theorem reroll (hbreaks : Breaks text) (h : ReadsAs text lexemes) :
    ReadsAs ('r' :: text) (.keyword .reroll :: lexemes) := by
  have hletters : ['r'].all Char.isAlpha = true := by decide
  refine read ['r'] (read?_letters (by decide) (List.all_eq_true.mp hletters) ?_) nofun h
  exact KeywordTable.longestPrefix?_append (by decide) (by decide)
    fun length => keyword?_reroll_longer (breaks_takeWhile hbreaks)

theorem rerollOnce (h : ReadsAs text lexemes) :
    ReadsAs ('r' :: 'o' :: text) (.keyword .rerollOnce :: lexemes) := by
  have hletters : ['r', 'o'].all Char.isAlpha = true := by decide
  refine read ['r', 'o'] (read?_letters (by decide) (List.all_eq_true.mp hletters) ?_) nofun h
  exact KeywordTable.longestPrefix?_append (by decide) (by decide)
    fun length => keyword?_rerollOnce_longer

/-- A run of letters that is a spelling, before an amount. -/
theorem keyword_digits (word : List Char) {keyword : Keyword} {value : Nat} (hne : word ≠ [])
    (hword : word.all Char.isAlpha = true)
    (hspelled : KeywordTable.standard.longestPrefix? word = some (keyword, word.length))
    (fits : value < UInt64.size) (hbreaks : Breaks text) (h : ReadsAs text lexemes) :
    ReadsAs (word ++ (Nat.toDigits 10 value ++ text))
      (.keyword keyword :: .number value :: lexemes) := by
  obtain ⟨first, others, hdigits, hfirst⟩ := toDigits_head value
  refine ReadsAs.keyword hne hword hspelled ?_ (digits fits hbreaks h)
  rw [hdigits]
  rintro _ ⟨⟩
  exact not_isAlpha_of_isDigit hfirst

theorem comparison {value : Nat} (sign : Comparison) (fits : value < UInt64.size)
    (hbreaks : Breaks text) (h : ReadsAs text lexemes) :
    ReadsAs (sign.symbol.toList ++ (Nat.toDigits 10 value ++ text))
      (.comparison sign :: .number value :: lexemes) := by
  obtain ⟨first, others, hdigits, hfirst⟩ := toDigits_head value
  refine read sign.symbol.toList ?_ nofun (digits fits hbreaks h)
  rw [hdigits, List.cons_append]
  have heq : first ≠ '=' := by rintro rfl; cases hfirst
  have hgt : first ≠ '>' := by rintro rfl; cases hfirst
  cases sign with
  | less =>
    change symbol? ('<' :: first :: (others ++ text)) = some (.comparison .less, 1)
    simp [symbol?, heq, hgt, ofChar?]
  | greater =>
    change symbol? ('>' :: first :: (others ++ text)) = some (.comparison .greater, 1)
    simp [symbol?, heq, ofChar?]
  | _ => rfl

end ReadsAs

theorem toList_word (word : UInt32) : (toString word).toList = Nat.toDigits 10 word.toNat :=
  Nat.toList_repr

theorem toList_literal {value : Int64} {number : Nat} (fits : value.toInt = number) :
    (toString value).toList = Nat.toDigits 10 value.toInt.toNat := by
  change (toString value.toInt).toList = _
  rw [fits]
  exact Nat.toList_repr

theorem literal_fits {value : Int64} {number : Nat} (fits : value.toInt = number) :
    value.toInt.toNat < UInt64.size := by
  have hvalue := value.toInt_lt
  rw [UInt64.size]
  omega

theorem word_fits (word : UInt32) : word.toNat < UInt64.size :=
  Nat.lt_of_lt_of_le word.toNat_lt (by decide)

theorem breaks_cons (first : Char) (text : List Char) (h : first ∈ breakers) :
    Breaks (first :: text) := by
  rintro _ ⟨⟩
  exact h

section Texts

variable {text : List Char} {lexemes : List Lexeme}

theorem Condition.readsAs {derived : List Lexeme} {condition : Condition}
    (hform : Grammar.IsCondition derived condition) (hbreaks : Breaks text)
    (h : ReadsAs text lexemes) :
    ReadsAs (condition.text.toList ++ text) (condition.lexemes ++ lexemes) := by
  obtain ⟨number, fits⟩ : ∃ number : Nat, condition.value.toInt = number := by
    cases hform <;> exact ⟨_, ‹_›⟩
  rw [Condition.text, String.toList_append, toList_literal fits, List.append_assoc]
  exact .comparison _ (literal_fits fits) hbreaks h

theorem Comparison.breaks (sign : Comparison) : Breaks (sign.symbol.toList ++ text) := by
  cases sign with
  | equal => exact breaks_cons '=' _ (by decide)
  | notEqual | less | atMost => exact breaks_cons '<' _ (by decide)
  | greater | atLeast => exact breaks_cons '>' _ (by decide)

theorem Condition.breaks (condition : Condition) : Breaks (condition.text.toList ++ text) := by
  rw [Condition.text, String.toList_append, List.append_assoc]
  exact condition.comparison.breaks

/-- The condition of a modifier, if it has one, reads before whatever may come after a modifier. -/
theorem Condition.readsAs_orNone {derived : List Lexeme} {condition : Option Condition}
    (hform : Grammar.OrNone Grammar.IsCondition derived condition) (hbreaks : Breaks text)
    (h : ReadsAs text lexemes) :
    ReadsAs (((condition.map Condition.text).getD "").toList ++ text)
        ((condition.map Condition.lexemes).getD [] ++ lexemes) ∧
      Breaks (((condition.map Condition.text).getD "").toList ++ text) := by
  cases hform with
  | absent => exact ⟨h, hbreaks⟩
  | present reads => exact ⟨Condition.readsAs reads hbreaks h, Condition.breaks _⟩

theorem Modifier.readsAs {derived : List Lexeme} {modifier : Modifier}
    (hform : Grammar.IsModifier derived modifier) (hbreaks : Breaks text)
    (h : ReadsAs text lexemes) :
    ReadsAs (modifier.text.toList ++ text) (modifier.lexemes ++ lexemes) := by
  have amount (word : String) (keyword : Keyword) (amount : UInt32)
      (hword : word.toList ≠ [] ∧ word.toList.all Char.isAlpha = true)
      (hspelled : KeywordTable.standard.longestPrefix? word.toList =
        some (keyword, word.toList.length)) :
      ReadsAs ((word ++ toString amount).toList ++ text)
        (.keyword keyword :: .number amount.toNat :: lexemes) := by
    rw [String.toList_append, toList_word, List.append_assoc]
    exact .keyword_digits _ hword.1 hword.2 hspelled (word_fits _) hbreaks h
  cases modifier with
  | keep rank value => cases rank <;> exact amount _ _ value (by decide) (by decide)
  | drop rank value => cases rank <;> exact amount _ _ value (by decide) (by decide)
  | reroll condition =>
    cases hform with
    | reroll reads =>
      have ⟨hreads, hbreaks⟩ := Condition.readsAs_orNone reads hbreaks h
      rw [Modifier.text, String.toList_append, List.append_assoc]
      exact .reroll hbreaks hreads
  | rerollOnce condition =>
    cases hform with
    | rerollOnce reads =>
      have ⟨hreads, _⟩ := Condition.readsAs_orNone reads hbreaks h
      rw [Modifier.text, String.toList_append, List.append_assoc]
      exact .rerollOnce hreads
  | explode condition =>
    cases hform with
    | explode reads =>
      have ⟨hreads, _⟩ := Condition.readsAs_orNone reads hbreaks h
      rw [Modifier.text, String.toList_append, List.append_assoc]
      exact .read ['!'] rfl nofun hreads

theorem Modifier.breaks (modifier : Modifier) : Breaks (modifier.text.toList ++ text) := by
  cases modifier with
  | keep rank amount =>
    rw [Modifier.text, String.toList_append, String.toList_append]
    exact breaks_cons 'k' _ (by decide)
  | drop rank amount =>
    rw [Modifier.text, String.toList_append, String.toList_append]
    exact breaks_cons 'd' _ (by decide)
  | reroll condition | rerollOnce condition =>
    rw [Modifier.text, String.toList_append]
    exact breaks_cons 'r' _ (by decide)
  | explode condition =>
    rw [Modifier.text, String.toList_append]
    exact breaks_cons '!' _ (by decide)

theorem modifiers_readAs {derived : List Lexeme} {modifiers : List Modifier}
    (hform : Grammar.AreModifiers derived modifiers) (hbreaks : Breaks text)
    (h : ReadsAs text lexemes) :
    ReadsAs (modifiers.flatMap (·.text.toList) ++ text)
        (modifiers.flatMap Modifier.lexemes ++ lexemes) ∧
      Breaks (modifiers.flatMap (·.text.toList) ++ text) := by
  induction hform with
  | nil => exact ⟨h, hbreaks⟩
  | cons head _ ih =>
    simp only [List.flatMap_cons, List.append_assoc]
    exact ⟨Modifier.readsAs head ih.2 ih.1, Modifier.breaks _⟩

theorem DiceTerm.toList_text (term : DiceTerm) :
    term.text.toList = Nat.toDigits 10 term.count.toNat ++
      'd' :: (Nat.toDigits 10 term.sides.toNat ++ term.modifiers.flatMap (·.text.toList)) := by
  have htext : term.text = toString term.count ++ "d" ++ toString term.sides ++
      String.join (term.modifiers.map Modifier.text) := rfl
  rw [htext]
  simp only [String.toList_append, String.toList_join, List.flatMap_map, toList_word]
  simp

theorem DiceTerm.readsAs {derived : List Lexeme} {term : DiceTerm}
    (hform : Grammar.IsTerm derived term) (hbreaks : Breaks text) (h : ReadsAs text lexemes) :
    ReadsAs (term.text.toList ++ text) (term.lexemes ++ lexemes) := by
  obtain ⟨-, -, changes⟩ := hform
  have ⟨hmodifiers, hbreaks⟩ := modifiers_readAs changes hbreaks h
  rw [DiceTerm.toList_text, List.append_assoc, List.cons_append, List.append_assoc]
  refine .digits (word_fits _) (breaks_cons 'd' _ (by decide)) ?_
  exact .keyword_digits ['d'] (by decide) (by decide) (by decide) (word_fits _) hbreaks
    hmodifiers

theorem Operator.readsAs (sign : Operator) (h : ReadsAs text lexemes) :
    ReadsAs (sign.symbol.toList ++ text) (.operator sign :: lexemes) := by
  cases sign <;> exact .read _ rfl nofun h

theorem Expression.toList_text_binary (sign : Operator) (left right : Expression) :
    (binary sign left right).text.toList =
      left.text.toList ++ ' ' :: (sign.symbol.toList ++ ' ' :: right.text.toList) := by
  have htext : (binary sign left right).text =
      left.text ++ (" " ++ sign.symbol ++ " ") ++ right.text := rfl
  rw [htext]
  simp

theorem Expression.readsAs {level : Grammar.Level} {derived : List Lexeme}
    {expression : Expression} (hform : Grammar.Derives level derived expression)
    (hbreaks : Breaks text) (h : ReadsAs text lexemes) :
    ReadsAs (expression.text.toList ++ text) (expression.lexemes ++ lexemes) := by
  induction hform generalizing text lexemes with
  | product _ ih | factor _ ih => exact ih hbreaks h
  | additive sign _ _ _ ihleft ihright | multiplicative sign _ _ _ ihleft ihright =>
    rw [toList_text_binary, Expression.lexemes]
    simp only [List.append_assoc, List.cons_append]
    have hright := sign.readsAs (ihright hbreaks h).space
    exact ihleft (breaks_cons ' ' _ (by decide)) hright.space
  | negate _ ih =>
    rw [Expression.text, String.toList_append, List.append_assoc]
    exact .read ['-'] rfl nofun (ih hbreaks h)
  | dice reads => exact DiceTerm.readsAs reads hbreaks h
  | literal fits =>
    rw [Expression.text, toList_literal fits]
    exact .digits (literal_fits fits) hbreaks h
  | group _ ih =>
    have hclose : ReadsAs (')' :: text) (.rightParen :: lexemes) := .read [')'] rfl nofun h
    have hinner := ih (breaks_cons ')' _ (by decide)) hclose
    rw [Expression.text, Expression.lexemes]
    simp only [String.toList_append, List.append_assoc, List.cons_append]
    exact .read ['('] rfl nofun hinner

end Texts

theorem Modifier.endOfInput_notMem (modifier : Modifier) : endOfInput ∉ modifier.lexemes := by
  cases modifier with
  | keep rank amount | drop rank amount => simp [Modifier.lexemes]
  | reroll condition | rerollOnce condition | explode condition =>
    cases condition <;> simp [Modifier.lexemes, Condition.lexemes]

theorem Expression.endOfInput_notMem (expression : Expression) :
    endOfInput ∉ expression.lexemes := by
  induction expression with
  | literal value => simp [Expression.lexemes]
  | dice term => simp [Expression.lexemes, DiceTerm.lexemes, Modifier.endOfInput_notMem]
  | binary sign left right ihleft ihright => simp [Expression.lexemes, ihleft, ihright]
  | group inner ih | negate inner ih => simp [Expression.lexemes, ih]

/-- The canonical text of a tree that the grammar derives lexes into lexemes that derive it. -/
theorem tokenize_text {level : Grammar.Level} {derived : List Lexeme} {expression : Expression}
    (hform : Grammar.Derives level derived expression) :
    ∃ tokens, tokenize .standard expression.text = .ok tokens ∧
      Parser.body tokens = expression.lexemes := by
  have hbreaks : Breaks [] := by
    rintro _ ⟨⟩
  obtain ⟨tokens, hreads, hlexemes⟩ := Expression.readsAs hform hbreaks .done 0
  rw [List.append_nil] at hreads
  refine ⟨tokens, ?_, ?_⟩
  · rw [tokenize, Lexer.start, Lexer.readAll_of_reads hreads]
  · rw [Parser.body, hlexemes]
    refine takeWhile_append_of_stops (fun lexeme hmem => bne_iff_ne.mpr ?_) (by rintro _ ⟨⟩; rfl)
    rintro rfl
    exact expression.endOfInput_notMem hmem

/-- The canonical text of what is parsed from any tokens parses to the same expression. -/
theorem parse_text_of_ofTokens (tokens : List Token) (expression : Expression)
    (h : Expression.ofTokens tokens = .ok expression) :
    (∃ canonical, tokenize .standard expression.text = .ok canonical ∧
      Expression.ofTokens canonical = .ok expression) ∧
    Expression.parse expression.text = .ok expression := by
  obtain ⟨hform, hsize, hdepth⟩ := Parser.ofTokens_eq_ok_iff.mp h
  obtain ⟨canonical, htokenize, hbody⟩ := tokenize_text hform
  have hparse : Expression.ofTokens canonical = .ok expression := by
    rw [Parser.ofTokens_eq_ok_iff, hbody]
    exact ⟨hform.canonical, hsize, hdepth⟩
  refine ⟨⟨canonical, htokenize, hparse⟩, ?_⟩
  rw [Expression.parse, htokenize]
  dsimp only
  rw [hparse]

/-- Tokens as of `4d6rdl1--2`, without places or an end of input: the reroll has no condition to
part it from the drop, and one minus sign follows another. -/
theorem parse_text_of_reroll_before_drop :
    Expression.ofTokens
        ([.number 4, .keyword .die, .number 6, .keyword .reroll, .keyword .dropLowest, .number 1,
          .operator .sub, .operator .sub, .number 2].map (⟨·, 0⟩)) =
      .ok (.binary .sub (.dice ⟨4, 6, [.reroll none, .drop .lowest 1]⟩) (.negate (.literal 2))) ∧
    Expression.parse
        (Expression.binary .sub (.dice ⟨4, 6, [.reroll none, .drop .lowest 1]⟩)
          (.negate (.literal 2))).text =
      .ok (.binary .sub (.dice ⟨4, 6, [.reroll none, .drop .lowest 1]⟩)
        (.negate (.literal 2))) := by
  have h : Expression.ofTokens
      ([.number 4, .keyword .die, .number 6, .keyword .reroll, .keyword .dropLowest, .number 1,
        .operator .sub, .operator .sub, .number 2].map (⟨·, 0⟩)) =
      .ok (.binary .sub (.dice ⟨4, 6, [.reroll none, .drop .lowest 1]⟩)
        (.negate (.literal 2))) := by
    decide +kernel
  exact ⟨h, (parse_text_of_ofTokens _ _ h).2⟩

end DiceNotation
