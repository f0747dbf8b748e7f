import DiceNotation.Token.Lexer

/-!
# Texts and their tokens

A text reads as tokens when it is made of blanks and lexemes, each taken from the text that is left.
The lexer finds the tokens of a text that reads as some.
-/
namespace DiceNotation

theorem KeywordTable.prefixUpTo?_eq_none_iff {table : KeywordTable} {word : List Char} {n : Nat} :
    table.prefixUpTo? word n = none ↔
      ∀ length, 0 < length → length ≤ n → table.keyword? (word.take length) = none := by
  induction n with
  | zero =>
    simp only [prefixUpTo?, true_iff]
    omega
  | succ n ih =>
    have hsplit : table.prefixUpTo? word (n + 1) = none ↔
        table.keyword? (word.take (n + 1)) = none ∧ table.prefixUpTo? word n = none := by
      rw [prefixUpTo?]
      cases table.keyword? (word.take (n + 1)) <;> simp
    rw [hsplit, ih]
    constructor
    · rintro ⟨hlast, hshorter⟩ length hpos hle
      rcases Nat.le_succ_iff.mp hle with hle | rfl
      · exact hshorter length hpos hle
      · exact hlast
    · intro h
      exact ⟨h _ (Nat.succ_pos n) (Nat.le_refl _), fun length hpos hle => h length hpos (by omega)⟩

theorem KeywordTable.prefixUpTo?_eq_some_iff {table : KeywordTable} {word : List Char} {n : Nat}
    {keyword : Keyword} {length : Nat} :
    table.prefixUpTo? word n = some (keyword, length) ↔
      0 < length ∧ length ≤ n ∧ table.keyword? (word.take length) = some keyword ∧
        ∀ longer, length < longer → longer ≤ n → table.keyword? (word.take longer) = none := by
  induction n with
  | zero =>
    simp only [prefixUpTo?, reduceCtorEq, false_iff]
    omega
  | succ n ih =>
    rw [prefixUpTo?]
    cases hlast : table.keyword? (word.take (n + 1)) with
    | some found =>
      simp only [Option.some.injEq, Prod.mk.injEq]
      constructor
      · rintro ⟨rfl, rfl⟩
        exact ⟨Nat.succ_pos n, Nat.le_refl _, hlast, fun longer hlt hle => by omega⟩
      · rintro ⟨_, hle, hkeyword, hlonger⟩
        have hlength : length = n + 1 := by
          rcases Nat.lt_or_eq_of_le hle with hlt | heq
          · have := hlonger (n + 1) hlt (Nat.le_refl _)
            simp [hlast] at this
          · exact heq
        rw [hlength, hlast] at hkeyword
        exact ⟨Option.some.inj hkeyword, hlength.symm⟩
    | none =>
      simp only [ih]
      constructor
      · rintro ⟨hpos, hle, hkeyword, hlonger⟩
        refine ⟨hpos, by omega, hkeyword, fun longer hlt hle => ?_⟩
        rcases Nat.le_succ_iff.mp hle with hle | rfl
        · exact hlonger longer hlt hle
        · exact hlast
      · rintro ⟨hpos, hle, hkeyword, hlonger⟩
        have hne : length ≠ n + 1 := by
          rintro rfl
          simp [hlast] at hkeyword
        exact ⟨hpos, by omega, hkeyword, fun longer hlt hle => hlonger longer hlt (by omega)⟩

/-- A word is cut nowhere when none of the texts that it starts with is a spelling. -/
theorem KeywordTable.longestPrefix?_eq_none_iff {table : KeywordTable} {word : List Char} :
    table.longestPrefix? word = none ↔
      ∀ start, start <+: word → start ≠ [] → table.keyword? start = none := by
  rw [longestPrefix?_eq, prefixUpTo?_eq_none_iff]
  constructor
  · intro h start hstart hne
    rw [List.prefix_iff_eq_take.mp hstart]
    exact h _ (List.length_pos_iff.mpr hne) hstart.length_le
  · intro h length hpos hle
    refine h _ (List.take_prefix _ _) ?_
    simp only [ne_eq, List.take_eq_nil_iff]
    rintro (rfl | rfl) <;> simp_all

theorem KeywordTable.exists_append_of_longestPrefix? {table : KeywordTable} {word : List Char}
    {keyword : Keyword} {length : Nat} (h : table.longestPrefix? word = some (keyword, length)) :
    ∃ spelling rest, word = spelling ++ rest ∧ length = spelling.length := by
  rw [longestPrefix?_eq, prefixUpTo?_eq_some_iff] at h
  refine ⟨word.take length, word.drop length, by simp, ?_⟩
  rw [List.length_take, Nat.min_eq_left h.2.1]

/-- A spelling is cut off when no longer one is there. -/
theorem KeywordTable.longestPrefix?_append {table : KeywordTable} {spelling rest : List Char}
    {keyword : Keyword} (hne : spelling ≠ []) (hkeyword : table.keyword? spelling = some keyword)
    (hlonger : ∀ length, spelling.length < length → length ≤ (spelling ++ rest).length →
      table.keyword? ((spelling ++ rest).take length) = none) :
    table.longestPrefix? (spelling ++ rest) = some (keyword, spelling.length) := by
  rw [longestPrefix?_eq, prefixUpTo?_eq_some_iff, List.take_left]
  exact ⟨List.length_pos_iff.mpr hne, by simp, hkeyword, hlonger⟩

/-- A word is cut after a spelling when no longer text that it starts with is one. -/
theorem KeywordTable.longestPrefix?_append_eq_some_iff {table : KeywordTable}
    {spelling rest : List Char} {keyword : Keyword} :
    table.longestPrefix? (spelling ++ rest) = some (keyword, spelling.length) ↔
      spelling ≠ [] ∧ table.keyword? spelling = some keyword ∧
        ∀ longer, longer <+: spelling ++ rest → spelling.length < longer.length →
          table.keyword? longer = none := by
  constructor
  · rw [longestPrefix?_eq, prefixUpTo?_eq_some_iff, List.take_left]
    rintro ⟨hpos, _, hkeyword, hlonger⟩
    refine ⟨List.length_pos_iff.mp hpos, hkeyword, fun longer hprefix hlt => ?_⟩
    rw [List.prefix_iff_eq_take.mp hprefix]
    exact hlonger _ hlt hprefix.length_le
  · rintro ⟨hne, hkeyword, hlonger⟩
    refine longestPrefix?_append hne hkeyword fun longer hlt hle => ?_
    exact hlonger _ (List.take_prefix _ _) (by rw [List.length_take]; omega)

theorem takeWhile_append_of_stops {α : Type} {p : α → Bool} {word rest : List α}
    (hword : ∀ element ∈ word, p element = true)
    (hrest : ∀ next ∈ rest.head?, p next = false) : (word ++ rest).takeWhile p = word := by
  rw [List.takeWhile_append_of_pos hword]
  cases rest with
  | nil => simp
  | cons next rest => rw [List.takeWhile_cons_of_neg (by simp [hrest next rfl]), List.append_nil]

theorem not_isDigit_of_isAlpha {character : Char} (h : character.isAlpha = true) :
    character.isDigit = false := by
  delta Char.isAlpha Char.isUpper Char.isLower at h
  delta Char.isDigit
  grind

theorem Lexeme.read?_digits {table : KeywordTable} {digits rest : List Char} (hne : digits ≠ [])
    (hdigits : ∀ character ∈ digits, character.isDigit = true)
    (hrest : ∀ next ∈ rest.head?, next.isDigit = false) :
    read? table (digits ++ rest) =
      some (number (Nat.ofDigitChars 10 digits 0), digits.length) := by
  obtain ⟨first, others, rfl⟩ := List.exists_cons_of_ne_nil hne
  have hrun := takeWhile_append_of_stops hdigits hrest
  rw [List.cons_append] at hrun ⊢
  simp only [read?, hdigits first (List.mem_cons_self ..), hrun]
  rfl

theorem Lexeme.read?_letters {table : KeywordTable} {word rest : List Char} {keyword : Keyword}
    {length : Nat} (hne : word ≠ []) (hword : ∀ character ∈ word, character.isAlpha = true)
    (hspelled : table.longestPrefix? (word ++ rest.takeWhile Char.isAlpha) =
      some (keyword, length)) :
    read? table (word ++ rest) = some (.keyword keyword, length) := by
  obtain ⟨first, others, rfl⟩ := List.exists_cons_of_ne_nil hne
  have hletter := hword first (List.mem_cons_self ..)
  rw [← List.takeWhile_append_of_pos hword] at hspelled
  rw [List.cons_append] at hspelled ⊢
  simp only [read?, not_isDigit_of_isAlpha hletter, hletter, hspelled]
  rfl

theorem Lexeme.read?_word {table : KeywordTable} {word rest : List Char} (hne : word ≠ [])
    (hword : ∀ character ∈ word, character.isAlpha = true)
    (hrest : ∀ next ∈ rest.head?, next.isAlpha = false)
    (hunspelled : table.longestPrefix? word = none) :
    read? table (word ++ rest) = some (.word (String.ofList word), word.length) := by
  obtain ⟨first, others, rfl⟩ := List.exists_cons_of_ne_nil hne
  have hletter := hword first (List.mem_cons_self ..)
  have hrun := takeWhile_append_of_stops hword hrest
  rw [List.cons_append] at hrun ⊢
  simp only [read?, not_isDigit_of_isAlpha hletter, hletter, hrun, hunspelled]
  rfl

theorem Lexeme.read?_symbol {table : KeywordTable} {first : Char} {text : List Char}
    (hdigit : first.isDigit = false) (hletter : first.isAlpha = false) :
    read? table (first :: text) = symbol? (first :: text) := by
  simp only [read?, hdigit, hletter]
  rfl

theorem Lexeme.read?_ne_endOfInput {table : KeywordTable} {text : List Char} {lexeme : Lexeme}
    {length : Nat} (h : read? table text = some (lexeme, length)) : lexeme ≠ .endOfInput := by
  rintro rfl
  unfold read? at h
  split at h
  · cases h
  · dsimp only at h
    split at h
    · cases h
    · split at h
      · split at h <;> cases h
      · unfold symbol? at h
        split at h
        · cases h
        · cases h
        · cases h
        · obtain ⟨found, hfound, heq⟩ := Option.map_eq_some_iff.mp h
          cases heq
          unfold ofChar? at hfound
          split at hfound <;> cases hfound
        · cases h

namespace Lexer

/-- No lexeme starts with a blank. -/
theorem not_isBlank_of_read? {table : KeywordTable} {first : Char} {text : List Char}
    {found : Lexeme × Nat} (h : Lexeme.read? table (first :: text) = some found) :
    isBlank first = false := by
  rw [← Bool.not_eq_true]
  intro hblank
  simp only [isBlank, Bool.or_eq_true, decide_eq_true_eq] at hblank
  rcases hblank with ((rfl | rfl) | rfl) | rfl <;> cases h

/-- The tokens of a text that starts at an offset. -/
inductive Reads (table : KeywordTable) : Nat → List Char → List Token → Prop
  | done (offset : Nat) : Reads table offset [] [⟨.endOfInput, offset⟩]
  | blank {offset : Nat} {first : Char} {text : List Char} {tokens : List Token}
      (isBlank : isBlank first = true) (rest : Reads table (offset + 1) text tokens) :
      Reads table offset (first :: text) tokens
  | lexeme {offset : Nat} {word text : List Char} {lexeme : Lexeme} {tokens : List Token}
      (read : Lexeme.read? table (word ++ text) = some (lexeme, word.length))
      (fits : ∀ value, lexeme = .number value → value < UInt64.size)
      (rest : Reads table (offset + word.length) text tokens) :
      Reads table offset (word ++ text) (⟨lexeme, offset⟩ :: tokens)

theorem nextToken_blank {table : KeywordTable} {first : Char} {text : List Char} {offset : Nat}
    {finished : Bool} (h : isBlank first = true) :
    nextToken ⟨table, first :: text, offset, finished⟩ =
      nextToken ⟨table, text, offset + 1, finished⟩ := by
  have hskip : skipBlanks ⟨table, first :: text, offset, finished⟩ =
      skipBlanks ⟨table, text, offset + 1, finished⟩ := by
    simp only [skipBlanks, advance, List.takeWhile_cons_of_pos h, List.length_cons,
      List.drop_succ_cons]
    congr 1
    omega
  rw [nextToken, hskip, nextToken]

theorem readToken_lexeme {lexer : Lexer} {lexeme : Lexeme} {length : Nat}
    (hread : Lexeme.read? lexer.table lexer.rest = some (lexeme, length))
    (fits : ∀ value, lexeme = .number value → value < UInt64.size) :
    lexer.readToken = (.ok ⟨lexeme, lexer.offset⟩, lexer.advance length) := by
  unfold readToken
  split
  · rename_i hrest
    rw [hrest] at hread
    cases hread
  · rw [hread]
    cases lexeme with
    | number value => exact if_pos (fits value rfl)
    | _ => rfl

theorem readToken_tooLarge {lexer : Lexer} {value length : Nat}
    (hread : Lexeme.read? lexer.table lexer.rest = some (.number value, length))
    (hlarge : UInt64.size ≤ value) :
    lexer.readToken =
      (.error (.numberTooLarge lexer.offset (String.ofList (lexer.rest.take length))),
        lexer.advance length) := by
  unfold readToken
  split
  · rename_i hrest
    rw [hrest] at hread
    cases hread
  · rw [hread]
    exact if_neg (Nat.not_lt.mpr hlarge)

theorem nextToken_of_not_isBlank {table : KeywordTable} {first : Char} {text : List Char}
    {offset : Nat} {finished : Bool} (h : isBlank first = false) :
    nextToken ⟨table, first :: text, offset, finished⟩ =
      readToken ⟨table, first :: text, offset, finished⟩ := by
  have hskip : skipBlanks ⟨table, first :: text, offset, finished⟩ =
      ⟨table, first :: text, offset, finished⟩ := by
    simp [skipBlanks, advance, h]
  rw [nextToken, hskip]

theorem nextToken_lexeme {table : KeywordTable} {word text : List Char} {lexeme : Lexeme}
    {offset : Nat} {finished : Bool}
    (hread : Lexeme.read? table (word ++ text) = some (lexeme, word.length))
    (fits : ∀ value, lexeme = .number value → value < UInt64.size) :
    nextToken ⟨table, word ++ text, offset, finished⟩ =
      (.ok ⟨lexeme, offset⟩, ⟨table, text, offset + word.length, finished⟩) := by
  obtain ⟨first, rest, htext⟩ : ∃ first rest, word ++ text = first :: rest := by
    cases h : word ++ text with
    | nil => rw [h] at hread; cases hread
    | cons first rest => exact ⟨first, rest, rfl⟩
  have hblank : isBlank first = false := by
    rw [htext] at hread
    exact not_isBlank_of_read? hread
  rw [htext, nextToken_of_not_isBlank hblank, ← htext, readToken_lexeme hread fits, advance]
  dsimp only
  rw [List.drop_left]

theorem readAll_eq (lexer : Lexer) :
    lexer.readAll =
      match lexer.nextToken with
      | (.error error, _) => ([], some error)
      | (.ok token, after) =>
        if token.lexeme = .endOfInput then ([token], none)
        else (token :: after.readAll.1, after.readAll.2) := by
  rw [readAll]
  split
  · rename_i h
    rw [h]
  · rename_i h
    rw [h]
    simp

theorem readAll_nil (table : KeywordTable) (offset : Nat) (finished : Bool) :
    readAll ⟨table, [], offset, finished⟩ = ([⟨.endOfInput, offset⟩], none) := by
  rw [readAll_eq]
  rfl

theorem readAll_blank {table : KeywordTable} {first : Char} {text : List Char} {offset : Nat}
    {finished : Bool} (h : isBlank first = true) :
    readAll ⟨table, first :: text, offset, finished⟩ =
      readAll ⟨table, text, offset + 1, finished⟩ := by
  rw [readAll_eq, nextToken_blank h, ← readAll_eq]

theorem readAll_lexeme {table : KeywordTable} {word text : List Char} {lexeme : Lexeme}
    {offset : Nat} {finished : Bool}
    (hread : Lexeme.read? table (word ++ text) = some (lexeme, word.length))
    (fits : ∀ value, lexeme = .number value → value < UInt64.size) :
    readAll ⟨table, word ++ text, offset, finished⟩ =
      (⟨lexeme, offset⟩ :: (readAll ⟨table, text, offset + word.length, finished⟩).1,
        (readAll ⟨table, text, offset + word.length, finished⟩).2) := by
  rw [readAll_eq, nextToken_lexeme hread fits]
  exact if_neg (Lexeme.read?_ne_endOfInput hread)

theorem readAll_of_reads {table : KeywordTable} {offset : Nat} {text : List Char}
    {tokens : List Token} (h : Reads table offset text tokens) (finished : Bool) :
    readAll ⟨table, text, offset, finished⟩ = (tokens, none) := by
  induction h with
  | done offset => exact readAll_nil table offset finished
  | blank hblank _ ih => rw [readAll_blank hblank, ih]
  | lexeme read fits _ ih => rw [readAll_lexeme read fits, ih]

/-- Reading that ends without an error finds a lexeme wherever the text is not blank. -/
theorem exists_read?_of_readAll {table : KeywordTable} {first : Char} {text : List Char}
    {offset : Nat} {finished : Bool} (hblank : isBlank first = false)
    (h : (readAll ⟨table, first :: text, offset, finished⟩).2 = none) :
    ∃ lexeme length, Lexeme.read? table (first :: text) = some (lexeme, length) ∧
      ∀ value, lexeme = .number value → value < UInt64.size := by
  rw [readAll_eq, nextToken_of_not_isBlank hblank] at h
  unfold readToken at h
  dsimp only at h
  cases hread : Lexeme.read? table (first :: text) with
  | none => simp [hread] at h
  | some found =>
    obtain ⟨lexeme, length⟩ := found
    refine ⟨lexeme, length, rfl, ?_⟩
    rintro value rfl
    by_cases hfits : value < UInt64.size
    · exact hfits
    · simp [hread, hfits] at h

end Lexer

end DiceNotation
