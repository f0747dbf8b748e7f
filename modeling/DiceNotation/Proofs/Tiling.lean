import DiceNotation.Proofs.Reading
import DiceNotation.Text.Column

/-!
# A line as tiles

A line whose tokens can be read falls into tiles: blanks, and spans that stand for one token each.
A run of digits is one span, a symbol is the longest that is there, and a run of letters is cut from
the left into the longest spellings.
-/
namespace DiceNotation

inductive Tile
  | blank (character : Char)
  | span (text : List Char) (lexeme : Lexeme)

namespace Tile

def text : Tile → List Char
  | blank character => [character]
  | span text _ => text

def texts (tiles : List Tile) : List Char := tiles.flatMap text

/-- The tokens of tiles of which the first starts at an offset. -/
def tokens : Nat → List Tile → List Token
  | _, [] => []
  | offset, blank character :: tiles => tokens (offset + character.utf8Size) tiles
  | offset, span text lexeme :: tiles =>
    ⟨lexeme, offset⟩ :: tokens (offset + Text.byteLength text) tiles

@[simp] theorem texts_nil : texts [] = [] := rfl

@[simp] theorem texts_blank (character : Char) (tiles : List Tile) :
    texts (blank character :: tiles) = character :: texts tiles := rfl

@[simp] theorem texts_span (text : List Char) (lexeme : Lexeme) (tiles : List Tile) :
    texts (span text lexeme :: tiles) = text ++ texts tiles := rfl

@[simp] theorem texts_append (left right : List Tile) :
    texts (left ++ right) = texts left ++ texts right := List.flatMap_append

theorem tokens_append (left right : List Tile) (offset : Nat) :
    tokens offset (left ++ right) =
      tokens offset left ++ tokens (offset + Text.byteLength (texts left)) right := by
  induction left generalizing offset with
  | nil => simp [tokens, Text.byteLength]
  | cons tile left ih =>
    cases tile with
    | blank character => simp [tokens, Text.byteLength, ih, Nat.add_assoc]
    | span text lexeme => simp [tokens, Text.byteLength_append, ih, Nat.add_assoc]

theorem exists_span_of_mem_tokens {token : Token} {tiles : List Tile} {offset : Nat}
    (h : token ∈ tokens offset tiles) :
    ∃ before text after, tiles = before ++ span text token.lexeme :: after ∧
      token.offset = offset + Text.byteLength (texts before) := by
  induction tiles generalizing offset with
  | nil => cases h
  | cons tile tiles ih =>
    cases tile with
    | blank character =>
      obtain ⟨before, text, after, rfl, hoffset⟩ := ih h
      refine ⟨blank character :: before, text, after, rfl, ?_⟩
      simp [hoffset, Text.byteLength, Nat.add_assoc]
    | span text lexeme =>
      rcases List.mem_cons.mp h with rfl | h
      · exact ⟨[], text, tiles, rfl, rfl⟩
      · obtain ⟨before, text', after, rfl, hoffset⟩ := ih h
        refine ⟨span text lexeme :: before, text', after, rfl, ?_⟩
        simp [hoffset, Text.byteLength_append, Nat.add_assoc]

end Tile

def symbols : List (List Char × Lexeme) :=
  [(['<', '='], .comparison .atMost), (['>', '='], .comparison .atLeast),
    (['<', '>'], .comparison .notEqual), (['<'], .comparison .less),
    (['>'], .comparison .greater), (['='], .comparison .equal), (['+'], .operator .add),
    (['-'], .operator .sub), (['*'], .operator .mul), (['/'], .operator .div),
    (['('], .leftParen), ([')'], .rightParen), (['!'], .keyword .explode), (['%'], .percent)]

/-- How a run of letters is cut: after the longest spelling that it starts with, and then again;
what starts with no spelling is one word. -/
inductive Cut (table : KeywordTable) : List Char → List Tile → Prop
  | done : Cut table [] []
  | spelling {start rest : List Char} {keyword : Keyword} {tiles : List Tile}
      (nonempty : start ≠ []) (spelled : table.keyword? start = some keyword)
      (longest : ∀ longer, longer <+: start ++ rest → start.length < longer.length →
        table.keyword? longer = none)
      (further : Cut table rest tiles) :
      Cut table (start ++ rest) (.span start (.keyword keyword) :: tiles)
  | word {text : List Char} (nonempty : text ≠ [])
      (unspelled : ∀ start, start <+: text → start ≠ [] → table.keyword? start = none) :
      Cut table text [.span text (.word (String.ofList text))]

/-- Tiles that are as long as they can be. A run ends where a character of another kind follows. -/
inductive Munched (table : KeywordTable) : List Tile → Prop
  | done : Munched table []
  | blank {character : Char} {tiles : List Tile}
      (isBlank : character ∈ [' ', '\t', '\r', '\n']) (further : Munched table tiles) :
      Munched table (.blank character :: tiles)
  | digits {run : List Char} {tiles : List Tile} (nonempty : run ≠ [])
      (digits : ∀ character ∈ run, character.isDigit = true)
      (maximal : ∀ next ∈ (Tile.texts tiles).head?, next.isDigit = false)
      (fits : Nat.ofDigitChars 10 run 0 < UInt64.size) (further : Munched table tiles) :
      Munched table (.span run (.number (Nat.ofDigitChars 10 run 0)) :: tiles)
  | symbol {text : List Char} {lexeme : Lexeme} {tiles : List Tile}
      (isSymbol : (text, lexeme) ∈ symbols)
      (longest : ∀ longer ∈ symbols, longer.1 <+: text ++ Tile.texts tiles →
        longer.1.length ≤ text.length)
      (further : Munched table tiles) :
      Munched table (.span text lexeme :: tiles)
  | letters {run : List Char} {pieces tiles : List Tile} (nonempty : run ≠ [])
      (letters : ∀ character ∈ run, character.isAlpha = true)
      (maximal : ∀ next ∈ (Tile.texts tiles).head?, next.isAlpha = false)
      (cut : Cut table run pieces) (further : Munched table tiles) :
      Munched table (pieces ++ tiles)

namespace Lexeme

theorem ofChar?_mem_symbols {character : Char} {lexeme : Lexeme}
    (h : ofChar? character = some lexeme) : ([character], lexeme) ∈ symbols := by
  unfold ofChar? at h
  split at h <;> cases h <;> simp [symbols]

/-- The symbol that is read is the longest that is there. -/
theorem symbol?_eq_some {text : List Char} {lexeme : Lexeme} {length : Nat}
    (h : symbol? text = some (lexeme, length)) :
    ∃ word rest, text = word ++ rest ∧ length = word.length ∧ (word, lexeme) ∈ symbols ∧
      ∀ longer ∈ symbols, longer.1 <+: text → longer.1.length ≤ word.length := by
  have hshort : ∀ longer ∈ symbols, longer.1.length ≤ 2 := by simp [symbols]
  have hdouble : ∀ longer ∈ symbols, longer.1.length ≤ 1 ∨
      longer.1 = ['<', '='] ∨ longer.1 = ['>', '='] ∨ longer.1 = ['<', '>'] := by
    simp [symbols]
  unfold symbol? at h
  split at h
  · cases h
    exact ⟨['<', '='], _, rfl, rfl, by simp [symbols], fun longer hmem _ => hshort longer hmem⟩
  · cases h
    exact ⟨['>', '='], _, rfl, rfl, by simp [symbols], fun longer hmem _ => hshort longer hmem⟩
  · cases h
    exact ⟨['<', '>'], _, rfl, rfl, by simp [symbols], fun longer hmem _ => hshort longer hmem⟩
  · rename_i character rest hatMost hatLeast hnotEqual
    obtain ⟨found, hfound, heq⟩ := Option.map_eq_some_iff.mp h
    cases heq
    refine ⟨[character], rest, rfl, rfl, ofChar?_mem_symbols hfound, ?_⟩
    rintro longer hmem ⟨after, hafter⟩
    rcases hdouble longer hmem with hlength | hlonger | hlonger | hlonger
    · exact hlength
    · rw [hlonger] at hafter
      cases hafter
      exact absurd rfl (hatMost _ rfl)
    · rw [hlonger] at hafter
      cases hafter
      exact absurd rfl (hatLeast _ rfl)
    · rw [hlonger] at hafter
      cases hafter
      exact absurd rfl (hnotEqual _ rfl)
  · cases h

theorem isSome_symbol? {word rest : List Char} {lexeme : Lexeme} (h : (word, lexeme) ∈ symbols) :
    (symbol? (word ++ rest)).isSome = true := by
  have hfirst : ∀ symbol ∈ symbols, (symbol.1.head?.bind ofChar?).isSome = true := by
    simp [symbols, ofChar?]
  have hword := hfirst _ h
  cases word with
  | nil => simp at hword
  | cons first others =>
    simp only [List.head?_cons, Option.bind_some] at hword
    rw [List.cons_append]
    unfold symbol?
    split
    · rfl
    · rfl
    · rfl
    · rename_i heq
      cases heq
      simpa using hword
    · rename_i heq
      cases heq

theorem symbol?_append {word rest : List Char} {lexeme : Lexeme} (hmem : (word, lexeme) ∈ symbols)
    (hlongest : ∀ longer ∈ symbols, longer.1 <+: word ++ rest → longer.1.length ≤ word.length) :
    symbol? (word ++ rest) = some (lexeme, word.length) := by
  have hunique : ∀ symbol ∈ symbols, ∀ symbol' ∈ symbols, symbol.1 = symbol'.1 →
      symbol.2 = symbol'.2 := by
    simp [symbols]
  obtain ⟨⟨found, length⟩, hfound⟩ := Option.isSome_iff_exists.mp (isSome_symbol? hmem)
  obtain ⟨other, after, htext, rfl, hother, hlongest'⟩ := symbol?_eq_some hfound
  have hprefix : word <+: word ++ rest := List.prefix_append word rest
  have hprefix' : other <+: word ++ rest := ⟨after, htext.symm⟩
  -- two symbols that are both the longest at one place are the same one
  have hlength : other.length = word.length :=
    Nat.le_antisymm (hlongest _ hother hprefix') (hlongest' _ hmem hprefix)
  have hword : other = word :=
    (List.prefix_of_prefix_length_le hprefix' hprefix (Nat.le_of_eq hlength)).eq_of_length hlength
  have hlexeme : found = lexeme := hunique _ hother _ hmem hword
  rw [hfound, hlexeme, hlength]

theorem read?_of_symbol (table : KeywordTable) {word rest : List Char} {lexeme : Lexeme}
    (hmem : (word, lexeme) ∈ symbols)
    (hlongest : ∀ longer ∈ symbols, longer.1 <+: word ++ rest → longer.1.length ≤ word.length) :
    read? table (word ++ rest) = some (lexeme, word.length) := by
  have hkind : ∀ symbol ∈ symbols, symbol.1 ≠ [] ∧ ∀ first ∈ symbol.1,
      first.isDigit = false ∧ first.isAlpha = false := by simp [symbols]
  rw [← symbol?_append hmem hlongest]
  cases word with
  | nil => exact absurd rfl (hkind _ hmem).1
  | cons first others =>
    have hfirst := (hkind _ hmem).2 first (List.mem_cons_self ..)
    exact read?_symbol hfirst.1 hfirst.2

end Lexeme

theorem utf8Size_of_isDigit {character : Char} (h : character.isDigit = true) :
    character.utf8Size = 1 := by
  rw [Char.utf8Size_eq_one_iff]
  delta Char.isDigit at h
  grind

theorem utf8Size_of_isAlpha {character : Char} (h : character.isAlpha = true) :
    character.utf8Size = 1 := by
  rw [Char.utf8Size_eq_one_iff]
  delta Char.isAlpha Char.isUpper Char.isLower at h
  grind

theorem utf8Size_of_symbol : ∀ symbol ∈ symbols, ∀ character ∈ symbol.1,
    character.utf8Size = 1 := by
  simp [symbols, Char.utf8Size]

theorem byteLength_of_utf8Size {text : List Char}
    (h : ∀ character ∈ text, character.utf8Size = 1) : Text.byteLength text = text.length := by
  induction text with
  | nil => rfl
  | cons first text ih =>
    rw [List.forall_mem_cons] at h
    rw [Text.byteLength, h.1, ih h.2, List.length_cons, Nat.add_comm]

theorem mem_blanks_iff {character : Char} :
    character ∈ [' ', '\t', '\r', '\n'] ↔ Lexer.isBlank character = true := by
  simp [Lexer.isBlank, or_assoc]

theorem utf8Size_of_blank : ∀ character ∈ [' ', '\t', '\r', '\n'], character.utf8Size = 1 := by
  simp [Char.utf8Size]

theorem Cut.texts_eq {table : KeywordTable} {run : List Char} {pieces : List Tile}
    (h : Cut table run pieces) : Tile.texts pieces = run := by
  induction h with
  | done => rfl
  | spelling _ _ _ _ ih => simp [ih]
  | word _ _ => simp

theorem exists_cut (table : KeywordTable) (run : List Char) : ∃ pieces, Cut table run pieces := by
  -- a spelling is never empty, so the run gets shorter with each one
  induction hsize : run.length using Nat.strongRecOn generalizing run with
  | _ size ih =>
    cases hprefix : table.longestPrefix? run with
    | none =>
      by_cases hne : run = []
      · exact ⟨[], hne ▸ .done⟩
      · exact ⟨_, .word hne (KeywordTable.longestPrefix?_eq_none_iff.mp hprefix)⟩
    | some found =>
      obtain ⟨keyword, length⟩ := found
      obtain ⟨start, rest, rfl, rfl⟩ := KeywordTable.exists_append_of_longestPrefix? hprefix
      obtain ⟨hne, hspelled, hlongest⟩ :=
        KeywordTable.longestPrefix?_append_eq_some_iff.mp hprefix
      have hpos := List.length_pos_iff.mpr hne
      have hshorter : rest.length < size := by
        rw [← hsize, List.length_append]
        omega
      obtain ⟨pieces, hpieces⟩ := ih rest.length hshorter rest rfl
      exact ⟨_, .spelling hne hspelled hlongest hpieces⟩

namespace Lexer

theorem readAll_span {table : KeywordTable} {word text : List Char} {lexeme : Lexeme}
    {offset : Nat} {finished : Bool}
    (hread : Lexeme.read? table (word ++ text) = some (lexeme, word.length))
    (fits : ∀ value, lexeme = .number value → value < UInt64.size)
    (hword : ∀ character ∈ word, character.utf8Size = 1) :
    readAll ⟨table, word ++ text, offset, finished⟩ =
      (⟨lexeme, offset⟩ :: (readAll ⟨table, text, offset + Text.byteLength word, finished⟩).1,
        (readAll ⟨table, text, offset + Text.byteLength word, finished⟩).2) := by
  rw [byteLength_of_utf8Size hword, readAll_lexeme hread fits]

theorem readAll_cut {table : KeywordTable} {run rest : List Char} {pieces : List Tile}
    (h : Cut table run pieces) (hrun : ∀ character ∈ run, character.isAlpha = true)
    (hrest : ∀ next ∈ rest.head?, next.isAlpha = false) (offset : Nat) (finished : Bool) :
    readAll ⟨table, run ++ rest, offset, finished⟩ =
      (Tile.tokens offset pieces ++
          (readAll ⟨table, rest, offset + Text.byteLength run, finished⟩).1,
        (readAll ⟨table, rest, offset + Text.byteLength run, finished⟩).2) := by
  induction h generalizing offset with
  | done => simp [Tile.tokens, Text.byteLength]
  | @spelling start further keyword pieces hne hspelled hlongest _ ih =>
    rw [List.forall_mem_append] at hrun
    have hprefix := KeywordTable.longestPrefix?_append_eq_some_iff.mpr ⟨hne, hspelled, hlongest⟩
    have hread : Lexeme.read? table (start ++ (further ++ rest)) =
        some (.keyword keyword, start.length) := by
      refine Lexeme.read?_letters hne hrun.1 ?_
      rw [takeWhile_append_of_stops hrun.2 hrest, hprefix]
    have hascii := fun character hmem => utf8Size_of_isAlpha (hrun.1 character hmem)
    rw [List.append_assoc, readAll_span hread (by simp) hascii, ih hrun.2, Text.byteLength_append,
      ← Nat.add_assoc]
    rfl
  | @word text hne hunspelled =>
    have hnone := KeywordTable.longestPrefix?_eq_none_iff.mpr hunspelled
    have hread := Lexeme.read?_word hne hrun hrest hnone
    have hascii := fun character hmem => utf8Size_of_isAlpha (hrun character hmem)
    rw [readAll_span hread (by simp) hascii]
    rfl

end Lexer

/-- Tiles that are as long as they can be are what is read. -/
theorem Munched.readAll_eq {table : KeywordTable} {tiles : List Tile} (h : Munched table tiles)
    (offset : Nat) (finished : Bool) :
    Lexer.readAll ⟨table, Tile.texts tiles, offset, finished⟩ =
      (Tile.tokens offset tiles ++
        [⟨.endOfInput, offset + Text.byteLength (Tile.texts tiles)⟩], none) := by
  induction h generalizing offset with
  | done => exact Lexer.readAll_nil table offset finished
  | @blank character tiles hblank _ ih =>
    have hsize := utf8Size_of_blank character hblank
    rw [Tile.texts_blank, Lexer.readAll_blank (mem_blanks_iff.mp hblank), ih, Tile.tokens,
      Text.byteLength, hsize, Nat.add_assoc]
  | @digits run tiles hne hdigits hmaximal hfits _ ih =>
    have hread : Lexeme.read? table (run ++ Tile.texts tiles) =
        some (.number (Nat.ofDigitChars 10 run 0), run.length) :=
      Lexeme.read?_digits hne hdigits hmaximal
    have hvalue : ∀ value, Lexeme.number (Nat.ofDigitChars 10 run 0) = .number value →
        value < UInt64.size := by
      rintro value ⟨⟩
      exact hfits
    have hascii := fun character hmem => utf8Size_of_isDigit (hdigits character hmem)
    rw [Tile.texts_span, Lexer.readAll_span hread hvalue hascii, ih, Text.byteLength_append,
      Nat.add_assoc]
    rfl
  | @symbol text lexeme tiles hmem hlongest _ ih =>
    have hread := Lexeme.read?_of_symbol table hmem hlongest
    have hvalue : ∀ value, lexeme = .number value → value < UInt64.size := by
      rintro value rfl
      simp [symbols] at hmem
    rw [Tile.texts_span, Lexer.readAll_span hread hvalue (utf8Size_of_symbol _ hmem), ih,
      Text.byteLength_append, Nat.add_assoc]
    rfl
  | letters hne hletters hmaximal hcut _ ih =>
    rw [Tile.texts_append, hcut.texts_eq, Lexer.readAll_cut hcut hletters hmaximal, ih,
      Tile.tokens_append, hcut.texts_eq, Text.byteLength_append, List.append_assoc, Nat.add_assoc]

theorem exists_run {p : Char → Bool} {first : Char} (text : List Char) (h : p first = true) :
    ∃ run rest, first :: text = run ++ rest ∧ run ≠ [] ∧ (∀ character ∈ run, p character = true) ∧
      ∀ next ∈ rest.head?, p next = false := by
  refine ⟨(first :: text).takeWhile p, (first :: text).dropWhile p,
    List.takeWhile_append_dropWhile.symm, by simp [h], ?_, ?_⟩
  · exact List.all_eq_true.mp List.all_takeWhile
  · intro next hnext
    have hstop := List.head?_dropWhile_not p (first :: text)
    rw [Option.mem_def.mp hnext] at hstop
    exact hstop

/-- Reading a text, somewhere in a line, ends without an error. -/
def Readable (table : KeywordTable) (text : List Char) : Prop :=
  ∃ offset finished, (Lexer.readAll ⟨table, text, offset, finished⟩).2 = none

/-- The first tiles of a text; any tiles of the rest may follow them. -/
structure Starts (table : KeywordTable) (text : List Char) (pieces : List Tile)
    (rest : List Char) : Prop where
  split : text = Tile.texts pieces ++ rest
  nonempty : Tile.texts pieces ≠ []
  readable : Readable table rest
  munched : ∀ tiles, Tile.texts tiles = rest → Munched table tiles → Munched table (pieces ++ tiles)

section Starts

variable {table : KeywordTable} {first : Char} {text : List Char}

theorem Readable.starts_blank (h : Readable table (first :: text))
    (hblank : Lexer.isBlank first = true) : Starts table (first :: text) [.blank first] text := by
  obtain ⟨offset, finished, h⟩ := h
  rw [Lexer.readAll_blank hblank] at h
  refine ⟨rfl, List.cons_ne_nil first [], ⟨_, _, h⟩, fun tiles _ hmunched => ?_⟩
  exact .blank (mem_blanks_iff.mpr hblank) hmunched

theorem Readable.starts_digits (h : Readable table (first :: text))
    (hblank : Lexer.isBlank first = false) (hdigit : first.isDigit = true) :
    ∃ pieces rest, Starts table (first :: text) pieces rest := by
  obtain ⟨offset, finished, h⟩ := h
  obtain ⟨lexeme, length, hfound, hfits⟩ := Lexer.exists_read?_of_readAll hblank h
  obtain ⟨run, rest, htext, hne, hdigits, hmaximal⟩ := exists_run text hdigit
  have hread : Lexeme.read? table (run ++ rest) =
      some (.number (Nat.ofDigitChars 10 run 0), run.length) :=
    Lexeme.read?_digits hne hdigits hmaximal
  rw [htext] at h hfound ⊢
  have hlexeme : lexeme = .number (Nat.ofDigitChars 10 run 0) := by
    rw [hread] at hfound
    cases hfound
    rfl
  rw [Lexer.readAll_lexeme hread (hlexeme ▸ hfits)] at h
  refine ⟨[.span run (.number (Nat.ofDigitChars 10 run 0))], rest, by simp, by simpa using hne,
    ⟨_, _, h⟩, ?_⟩
  rintro tiles rfl hmunched
  exact .digits hne hdigits hmaximal (hfits _ hlexeme) hmunched

theorem Readable.starts_letters (h : Readable table (first :: text))
    (hletter : first.isAlpha = true) : ∃ pieces rest, Starts table (first :: text) pieces rest := by
  obtain ⟨offset, finished, h⟩ := h
  obtain ⟨run, rest, htext, hne, hletters, hmaximal⟩ := exists_run text hletter
  obtain ⟨pieces, hcut⟩ := exists_cut table run
  rw [htext] at h ⊢
  rw [Lexer.readAll_cut hcut hletters hmaximal] at h
  refine ⟨pieces, rest, by rw [hcut.texts_eq], by rwa [hcut.texts_eq], ⟨_, _, h⟩, ?_⟩
  rintro tiles rfl hmunched
  exact .letters hne hletters hmaximal hcut hmunched

theorem Readable.starts_symbol (h : Readable table (first :: text))
    (hblank : Lexer.isBlank first = false) (hdigit : first.isDigit = false)
    (hletter : first.isAlpha = false) :
    ∃ pieces rest, Starts table (first :: text) pieces rest := by
  obtain ⟨offset, finished, h⟩ := h
  obtain ⟨lexeme, length, hread, hfits⟩ := Lexer.exists_read?_of_readAll hblank h
  have hfound := hread
  rw [Lexeme.read?_symbol hdigit hletter] at hfound
  obtain ⟨word, rest, htext, rfl, hmem, hlongest⟩ := Lexeme.symbol?_eq_some hfound
  rw [htext] at h hread hlongest ⊢
  rw [Lexer.readAll_lexeme hread hfits] at h
  have hne : word ≠ [] := by
    rintro rfl
    simp [symbols] at hmem
  refine ⟨[.span word lexeme], rest, by simp, by simpa using hne, ⟨_, _, h⟩, ?_⟩
  rintro tiles rfl hmunched
  exact .symbol hmem hlongest hmunched

theorem Readable.exists_starts (h : Readable table (first :: text)) :
    ∃ pieces rest, Starts table (first :: text) pieces rest := by
  cases hblank : Lexer.isBlank first with
  | true => exact ⟨_, _, h.starts_blank hblank⟩
  | false =>
    cases hdigit : first.isDigit with
    | true => exact h.starts_digits hblank hdigit
    | false =>
      cases hletter : first.isAlpha with
      | true => exact h.starts_letters hletter
      | false => exact h.starts_symbol hblank hdigit hletter

end Starts

theorem Readable.exists_munched {table : KeywordTable} {text : List Char}
    (h : Readable table text) : ∃ tiles, Munched table tiles ∧ Tile.texts tiles = text := by
  induction hsize : text.length using Nat.strongRecOn generalizing text with
  | _ size ih =>
    cases text with
    | nil => exact ⟨[], .done, rfl⟩
    | cons first text =>
      obtain ⟨pieces, rest, hstarts⟩ := h.exists_starts
      have hpos := List.length_pos_iff.mpr hstarts.nonempty
      have hshorter : rest.length < size := by
        rw [← hsize, hstarts.split, List.length_append]
        omega
      obtain ⟨tiles, hmunched, htiles⟩ := ih rest.length hshorter hstarts.readable rfl
      refine ⟨pieces ++ tiles, hstarts.munched tiles htiles hmunched, ?_⟩
      rw [Tile.texts_append, htiles, hstarts.split]

/-- A tile takes some of the text, and none is the end of input. -/
def Tile.Proper : Tile → Prop
  | blank _ => True
  | span text lexeme => text ≠ [] ∧ lexeme ≠ .endOfInput

theorem Tile.Proper.text_ne_nil {tile : Tile} (h : tile.Proper) : tile.text ≠ [] := by
  cases tile with
  | blank character => exact List.cons_ne_nil character []
  | span text lexeme => exact h.1

theorem Cut.proper {table : KeywordTable} {run : List Char} {pieces : List Tile}
    (h : Cut table run pieces) : ∀ tile ∈ pieces, tile.Proper := by
  induction h with
  | done => simp
  | spelling nonempty _ _ _ ih => exact List.forall_mem_cons.mpr ⟨⟨nonempty, by simp⟩, ih⟩
  | word nonempty _ => exact List.forall_mem_cons.mpr ⟨⟨nonempty, by simp⟩, by simp⟩

theorem Munched.proper {table : KeywordTable} {tiles : List Tile} (h : Munched table tiles) :
    ∀ tile ∈ tiles, tile.Proper := by
  have hsymbol : ∀ symbol ∈ symbols, symbol.1 ≠ [] ∧ symbol.2 ≠ .endOfInput := by simp [symbols]
  induction h with
  | done => simp
  | blank _ _ ih => exact List.forall_mem_cons.mpr ⟨trivial, ih⟩
  | digits nonempty _ _ _ _ ih => exact List.forall_mem_cons.mpr ⟨⟨nonempty, by simp⟩, ih⟩
  | symbol isSymbol _ _ ih => exact List.forall_mem_cons.mpr ⟨hsymbol _ isSymbol, ih⟩
  | letters _ _ _ cut _ ih => exact List.forall_mem_append.mpr ⟨cut.proper, ih⟩

/-- A line is read exactly when it falls into tiles that are as long as they can be, and what is
read is the token of each span, at the byte where the span starts, and the end of input. -/
theorem tokenize_eq_ok_iff {table : KeywordTable} {line : String} {tokens : List Token} :
    tokenize table line = .ok tokens ↔
      ∃ tiles, Munched table tiles ∧ Tile.texts tiles = line.toList ∧
        (∀ tile ∈ tiles, tile.text ≠ []) ∧
        (∀ token ∈ Tile.tokens 0 tiles, token.lexeme ≠ .endOfInput) ∧
        tokens = Tile.tokens 0 tiles ++ [⟨.endOfInput, line.utf8ByteSize⟩] := by
  have hread : ∀ {tiles}, Munched table tiles → Tile.texts tiles = line.toList →
      (Lexer.start table line).readAll =
        (Tile.tokens 0 tiles ++ [⟨.endOfInput, line.utf8ByteSize⟩], none) := by
    intro tiles hmunched htexts
    have h := hmunched.readAll_eq 0 false
    rw [htexts, Text.byteLength_toList, Nat.zero_add] at h
    exact h
  constructor
  · intro h
    have herror : (Lexer.start table line).readAll.2 = none := by
      unfold tokenize at h
      split at h
      · rename_i hall
        rw [hall]
      · cases h
    have hreadable : Readable table line.toList := ⟨0, false, herror⟩
    obtain ⟨tiles, hmunched, htexts⟩ := hreadable.exists_munched
    refine ⟨tiles, hmunched, htexts, fun tile hmem => (hmunched.proper tile hmem).text_ne_nil,
      fun token hmem => ?_, ?_⟩
    · obtain ⟨before, text, after, heq, _⟩ := Tile.exists_span_of_mem_tokens hmem
      exact (hmunched.proper (.span text token.lexeme) (by simp [heq])).2
    · rw [tokenize, hread hmunched htexts] at h
      cases h
      rfl
  · rintro ⟨tiles, hmunched, htexts, _, _, rfl⟩
    rw [tokenize, hread hmunched htexts]

end DiceNotation
