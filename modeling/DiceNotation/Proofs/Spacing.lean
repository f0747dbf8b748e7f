import Mathlib.Data.List.Basic
import DiceNotation.Line
import DiceNotation.Proofs.Tiling

/-!
# Blanks between tokens

Blanks that are inserted where a token starts, or at the end, move the tokens behind them and change
nothing else, even where two keywords are written as one word.
-/
namespace DiceNotation

namespace Tile

theorem texts_cons (tile : Tile) (rest : List Tile) :
    texts (tile :: rest) = tile.text ++ texts rest := List.flatMap_cons

theorem texts_map_blank (blanks : List Char) : texts (blanks.map blank) = blanks := by
  induction blanks with
  | nil => rfl
  | cons first rest ih => rw [List.map_cons, texts_blank, ih]

theorem tokens_map_blank (offset : Nat) (blanks : List Char) :
    tokens offset (blanks.map blank) = [] := by
  induction blanks generalizing offset with
  | nil => rfl
  | cons first rest ih => rw [List.map_cons, tokens, ih]

theorem mem_tokens_cons {tile : Tile} {rest : List Tile} {token : Token} {offset : Nat}
    (h : token ∈ tokens offset (tile :: rest)) :
    token.offset = offset ∨ token ∈ tokens (offset + Text.byteLength tile.text) rest := by
  cases tile with
  | blank character => exact .inr h
  | span text lexeme =>
    rcases List.mem_cons.mp h with rfl | h
    · exact .inl rfl
    · exact .inr h

end Tile

/-- Blanks to insert into a line, for each byte of it the ones that come right before. -/
structure Spacing where
  gap : Nat → List Char
  blanks : ∀ offset, ∀ character ∈ gap offset, character ∈ [' ', '\t', '\r', '\n']

namespace Spacing

variable (spacing : Spacing)

/-- A part of a line, that starts at a byte, with its blanks and those at its end. -/
def spaced : Nat → List Char → List Char
  | offset, [] => spacing.gap offset
  | offset, first :: rest => spacing.gap offset ++ first :: spaced (offset + first.utf8Size) rest

def insert (line : String) : String := String.ofList (spacing.spaced 0 line.toList)

/-- How many bytes are inserted further to the front than a byte. -/
def bytesBefore : Nat → Nat
  | 0 => 0
  | offset + 1 => bytesBefore offset + Text.byteLength (spacing.gap offset)

def bytesUpTo (offset : Nat) : Nat :=
  spacing.bytesBefore offset + Text.byteLength (spacing.gap offset)

def moved (token : Token) : Token :=
  { token with offset := token.offset + spacing.bytesUpTo token.offset }

def movedError (error : ParseError) : ParseError :=
  { error with position := error.position + spacing.bytesUpTo error.position }

/-- There are no blanks between so many bytes from the given one on. -/
def Skips (offset length : Nat) : Prop :=
  ∀ inner, offset < inner → inner < offset + length → spacing.gap inner = []

variable {spacing} {offset length : Nat}

theorem Skips.bytesBefore_eq (h : spacing.Skips offset length) (hpos : 0 < length) :
    spacing.bytesBefore (offset + length) = spacing.bytesUpTo offset := by
  induction length with
  | zero => exact absurd hpos (Nat.lt_irrefl 0)
  | succ length ih =>
    rw [← Nat.add_assoc, bytesBefore]
    rcases Nat.eq_zero_or_pos length with rfl | hpos
    · rfl
    · have hgap := h (offset + length) (by omega) (by omega)
      have hshorter : spacing.Skips offset length := fun inner hlt hend =>
        h inner hlt (by omega)
      rw [ih hshorter hpos, hgap, Text.byteLength, Nat.add_zero]

theorem Skips.spaced_append {text rest : List Char} (hne : text ≠ [])
    (h : spacing.Skips offset (Text.byteLength text)) :
    spacing.spaced offset (text ++ rest) =
      spacing.gap offset ++ (text ++ spacing.spaced (offset + Text.byteLength text) rest) := by
  induction text generalizing offset with
  | nil => exact absurd rfl hne
  | cons first text ih =>
    rw [Text.byteLength] at h ⊢
    rw [List.cons_append, spaced]
    cases text with
    | nil => simp [Text.byteLength]
    | cons second text =>
      have hfirst := first.utf8Size_pos
      have hsecond := second.utf8Size_pos
      have hgap : spacing.gap (offset + first.utf8Size) = [] := by
        refine h _ (by omega) ?_
        rw [Text.byteLength]
        omega
      have hinner : spacing.Skips (offset + first.utf8Size) (Text.byteLength (second :: text)) :=
        fun inner hlt hend => h inner (by omega) (by omega)
      rw [ih (List.cons_ne_nil _ _) hinner, hgap, Nat.add_assoc]
      rfl

section Tiles

variable (spacing)

/-- Tiles of which the first starts at a byte, with the blanks that come before them. -/
def tiles : Nat → List Tile → List Tile
  | _, [] => []
  | offset, tile :: rest =>
    (spacing.gap offset).map .blank ++ tile :: tiles (offset + Text.byteLength tile.text) rest

/-- Blanks are inserted between the tiles only. -/
def Between : Nat → List Tile → Prop
  | _, [] => True
  | offset, tile :: rest =>
    spacing.Skips offset (Text.byteLength tile.text) ∧
      Between (offset + Text.byteLength tile.text) rest

variable {spacing}

theorem texts_tiles {rest : List Tile} (hproper : ∀ tile ∈ rest, tile.text ≠ [])
    (h : spacing.Between offset rest) :
    Tile.texts (spacing.tiles offset rest) ++
        spacing.gap (offset + Text.byteLength (Tile.texts rest)) =
      spacing.spaced offset (Tile.texts rest) := by
  induction rest generalizing offset with
  | nil => rfl
  | cons tile rest ih =>
    rw [List.forall_mem_cons] at hproper
    rw [tiles, Tile.texts_cons, h.1.spaced_append hproper.1, ← ih hproper.2 h.2, Tile.texts_append,
      Tile.texts_map_blank, Tile.texts_cons, Text.byteLength_append, Nat.add_assoc]
    simp only [List.append_assoc]

theorem tokens_tiles {rest : List Tile} (hproper : ∀ tile ∈ rest, tile.text ≠ [])
    (h : spacing.Between offset rest) :
    Tile.tokens (offset + spacing.bytesBefore offset) (spacing.tiles offset rest) =
      (Tile.tokens offset rest).map spacing.moved := by
  induction rest generalizing offset with
  | nil => rfl
  | cons tile rest ih =>
    rw [List.forall_mem_cons] at hproper
    have hrest := ih hproper.2 h.2
    rw [h.1.bytesBefore_eq (Text.byteLength_pos hproper.1)] at hrest
    rw [tiles, Tile.tokens_append, Tile.tokens_map_blank, Tile.texts_map_blank, List.nil_append,
      Nat.add_assoc offset, ← bytesUpTo]
    have hoffset : offset + Text.byteLength tile.text + spacing.bytesUpTo offset =
        offset + spacing.bytesUpTo offset + Text.byteLength tile.text := Nat.add_right_comm ..
    rw [hoffset] at hrest
    cases tile with
    | blank character => exact hrest
    | span text lexeme => exact congrArg (_ :: ·) hrest

theorem byteLength_tiles {rest : List Tile} (hproper : ∀ tile ∈ rest, tile.text ≠ [])
    (h : spacing.Between offset rest) :
    spacing.bytesBefore offset + Text.byteLength (Tile.texts (spacing.tiles offset rest)) =
      Text.byteLength (Tile.texts rest) +
        spacing.bytesBefore (offset + Text.byteLength (Tile.texts rest)) := by
  induction rest generalizing offset with
  | nil => exact Nat.add_comm _ 0
  | cons tile rest ih =>
    rw [List.forall_mem_cons] at hproper
    have hrest := ih hproper.2 h.2
    rw [h.1.bytesBefore_eq (Text.byteLength_pos hproper.1), bytesUpTo] at hrest
    rw [tiles, Tile.texts_append, Tile.texts_map_blank, Tile.texts_cons, Tile.texts_cons,
      Text.byteLength_append, Text.byteLength_append, Text.byteLength_append,
      ← Nat.add_assoc offset]
    omega

theorem between_of_places {rest : List Tile}
    (hplaces : ∀ inner, spacing.gap inner ≠ [] → inner ≤ offset ∨
      (∃ token ∈ Tile.tokens offset rest, token.offset = inner) ∨
        offset + Text.byteLength (Tile.texts rest) ≤ inner) :
    spacing.Between offset rest := by
  induction rest generalizing offset with
  | nil => trivial
  | cons tile rest ih =>
    rw [Tile.texts_cons, Text.byteLength_append, ← Nat.add_assoc] at hplaces
    have hbehind : ∀ inner, spacing.gap inner ≠ [] → inner ≤ offset ∨
        (∃ token ∈ Tile.tokens (offset + Text.byteLength tile.text) rest, token.offset = inner) ∨
          offset + Text.byteLength tile.text + Text.byteLength (Tile.texts rest) ≤ inner := by
      intro inner hgap
      rcases hplaces inner hgap with hle | ⟨token, hmem, rfl⟩ | hend
      · exact .inl hle
      · rcases Tile.mem_tokens_cons hmem with heq | hmem
        · exact .inl (Nat.le_of_eq heq)
        · exact .inr (.inl ⟨token, hmem, rfl⟩)
      · exact .inr (.inr hend)
    refine ⟨fun inner hlt hend => Decidable.byContradiction fun hgap => ?_,
      ih fun inner hgap => (hbehind inner hgap).imp_left (Nat.le_add_right_of_le)⟩
    rcases hbehind inner hgap with hle | ⟨token, hmem, rfl⟩ | hbehind
    · omega
    · obtain ⟨before, text, after, _, hoffset⟩ := Tile.exists_span_of_mem_tokens hmem
      omega
    · omega

theorem tiles_append (offset : Nat) (left right : List Tile) :
    spacing.tiles offset (left ++ right) =
      spacing.tiles offset left ++
        spacing.tiles (offset + Text.byteLength (Tile.texts left)) right := by
  induction left generalizing offset with
  | nil => rfl
  | cons tile left ih =>
    rw [List.cons_append, tiles, tiles, ih, Tile.texts_cons, Text.byteLength_append,
      List.append_assoc, List.cons_append, Nat.add_assoc]

theorem head?_texts_tiles {rest : List Tile} (hproper : ∀ tile ∈ rest, tile.text ≠ [])
    {last : List Char} (hlast : ∀ character ∈ last, character ∈ [' ', '\t', '\r', '\n']) :
    ∀ next ∈ (Tile.texts (spacing.tiles offset rest ++ last.map .blank)).head?,
      next ∈ [' ', '\t', '\r', '\n'] ∨ next ∈ (Tile.texts rest).head? := by
  cases rest with
  | nil =>
    intro next hnext
    rw [tiles, List.nil_append, Tile.texts_map_blank] at hnext
    exact .inl (hlast next (List.mem_of_head? hnext))
  | cons tile rest =>
    obtain ⟨first, text, htext⟩ := List.exists_cons_of_ne_nil (hproper tile (.head _))
    intro next hnext
    rw [tiles, List.append_assoc, Tile.texts_append, Tile.texts_map_blank, List.cons_append,
      Tile.texts_cons, htext] at hnext
    cases hgap : spacing.gap offset with
    | nil =>
      rw [hgap] at hnext
      exact .inr (by rwa [Tile.texts_cons, htext])
    | cons blank gap =>
      rw [hgap] at hnext
      cases hnext
      exact .inl (spacing.blanks offset next (by simp [hgap]))

end Tiles

end Spacing

theorem kinds_of_blank : ∀ character ∈ [' ', '\t', '\r', '\n'],
    character.isDigit = false ∧ character.isAlpha = false ∧
      ∀ symbol ∈ symbols, character ∉ symbol.1 := by
  simp [symbols]

section Munched

variable {table : KeywordTable} {spacing : Spacing} {offset : Nat}

theorem Munched.text_ne_nil {tiles : List Tile} (h : Munched table tiles) :
    ∀ tile ∈ tiles, tile.text ≠ [] := fun tile hmem => (h.proper tile hmem).text_ne_nil

theorem Munched.blanks {blanks : List Char} {tiles : List Tile}
    (hblanks : ∀ character ∈ blanks, character ∈ [' ', '\t', '\r', '\n'])
    (h : Munched table tiles) : Munched table (blanks.map .blank ++ tiles) := by
  induction blanks with
  | nil => exact h
  | cons first rest ih =>
    rw [List.forall_mem_cons] at hblanks
    exact .blank hblanks.1 (ih hblanks.2)

/-- A run of letters that is cut, if there is one, and tiles behind it. -/
structure CutThen (table : KeywordTable) (run : List Char) (pieces others : List Tile) : Prop where
  cut : Cut table run pieces
  letters : ∀ character ∈ run, character.isAlpha = true
  ends : ∀ next ∈ (Tile.texts others).head?, next.isAlpha = false
  munched : Munched table others

theorem CutThen.append_munched {run : List Char} {pieces others : List Tile}
    (h : CutThen table run pieces others) : Munched table (pieces ++ others) := by
  by_cases hne : run = []
  · have htexts := h.cut.texts_eq
    have hproper := fun tile hmem => (h.cut.proper tile hmem).text_ne_nil
    cases pieces with
    | nil => exact h.munched
    | cons tile pieces =>
      rw [hne, Tile.texts_cons] at htexts
      exact absurd (List.append_eq_nil_iff.mp htexts).1 (hproper tile (.head _))
  · exact .letters hne h.letters h.ends h.cut h.munched

theorem CutThen.exists_behind_gap {run whole : List Char} {pieces others : List Tile}
    (h : CutThen table run pieces others) (hinitial : run <+: whole) (spacing : Spacing)
    (offset : Nat) :
    ∃ run' pieces' others', (spacing.gap offset).map .blank ++ (pieces ++ others) =
      pieces' ++ others' ∧ run' <+: whole ∧ CutThen table run' pieces' others' := by
  have hgap := spacing.blanks offset
  have hmunched := Munched.blanks hgap h.append_munched
  cases hblanks : spacing.gap offset with
  | nil => exact ⟨run, pieces, others, rfl, hinitial, h⟩
  | cons first rest =>
    rw [hblanks] at hgap hmunched
    refine ⟨[], [], _, rfl, List.nil_prefix, .done, nofun, ?_, hmunched⟩
    rintro next ⟨⟩
    exact (kinds_of_blank first (hgap first (.head _))).2.1

/-- A run of letters that is cut can be parted where it is cut, for every start of it is cut in the
same way. -/
theorem Cut.exists_spaced {run : List Char} {pieces others : List Tile} (h : Cut table run pieces)
    (hletters : ∀ character ∈ run, character.isAlpha = true)
    (hends : ∀ next ∈ (Tile.texts others).head?, next.isAlpha = false)
    (hothers : Munched table others) (offset : Nat) :
    ∃ run' pieces' others', spacing.tiles offset pieces ++ others = pieces' ++ others' ∧
      run' <+: run ∧ CutThen table run' pieces' others' := by
  induction h generalizing offset with
  | done => exact ⟨[], [], others, rfl, List.prefix_rfl, .done, nofun, hends, hothers⟩
  | @spelling start further keyword pieces nonempty spelled longest _ ih =>
    rw [List.forall_mem_append] at hletters
    -- a shorter run offers no longer spelling, so the first keyword is found again
    obtain ⟨run', pieces', others', hsplit, hinitial, hcut⟩ :=
      ih hletters.2 (offset + Text.byteLength start)
    have hlonger : start ++ run' <+: start ++ further :=
      (List.prefix_append_right_inj start).mpr hinitial
    have hstart :
        CutThen table (start ++ run') (.span start (.keyword keyword) :: pieces') others' :=
      ⟨.spelling nonempty spelled (fun longer hmem => longest longer (hmem.trans hlonger)) hcut.cut,
        List.forall_mem_append.mpr ⟨hletters.1, fun character hmem =>
          hletters.2 character (hinitial.subset hmem)⟩, hcut.ends, hcut.munched⟩
    have hspaced := hstart.exists_behind_gap hlonger spacing offset
    rwa [List.cons_append, ← hsplit, ← List.cons_append, ← List.append_assoc] at hspaced
  | @word text nonempty unspelled =>
    have hword : CutThen table text [.span text (.word (String.ofList text))] others :=
      ⟨.word nonempty unspelled, hletters, hends, hothers⟩
    have hspaced := hword.exists_behind_gap List.prefix_rfl spacing offset
    rwa [← List.append_assoc] at hspaced

theorem Munched.ends_run {tiles : List Tile} {last : List Char} {p : Char → Bool}
    (h : Munched table tiles) (spacing : Spacing)
    (hends : ∀ next ∈ (Tile.texts tiles).head?, p next = false)
    (hlast : ∀ character ∈ last, character ∈ [' ', '\t', '\r', '\n'])
    (hblanks : ∀ character ∈ [' ', '\t', '\r', '\n'], p character = false) (offset : Nat) :
    ∀ next ∈ (Tile.texts (spacing.tiles offset tiles ++ last.map .blank)).head?,
      p next = false := by
  intro next hnext
  rcases Spacing.head?_texts_tiles h.text_ne_nil hlast next hnext with hblank | hnext
  · exact hblanks next hblank
  · exact hends next hnext

/-- No symbol gets longer, for the longer one would take a blank. -/
theorem Munched.longest_symbol {text : List Char} {lexeme : Lexeme} {tiles : List Tile}
    {last : List Char} (h : Munched table tiles) (hmem : (text, lexeme) ∈ symbols)
    (hlongest : ∀ longer ∈ symbols, longer.1 <+: text ++ Tile.texts tiles →
      longer.1.length ≤ text.length)
    (hlast : ∀ character ∈ last, character ∈ [' ', '\t', '\r', '\n']) :
    ∀ longer ∈ symbols,
      longer.1 <+: text ++ Tile.texts (spacing.tiles offset tiles ++ last.map .blank) →
        longer.1.length ≤ text.length := by
  have hsizes : ∀ symbol ∈ symbols, 0 < symbol.1.length ∧ symbol.1.length ≤ 2 := by
    simp [symbols]
  intro longer hlonger hinitial
  refine Decidable.byContradiction fun hlength => ?_
  have hlength := Nat.lt_of_not_le hlength
  obtain ⟨further, hfurther⟩ := List.prefix_of_prefix_length_le (List.prefix_append text _) hinitial
    (Nat.le_of_lt hlength)
  have hsize := congrArg List.length hfurther
  have hshort := (hsizes longer hlonger).2
  have htext : 0 < text.length := (hsizes _ hmem).1
  rw [List.length_append] at hsize
  -- a longer symbol takes one character more
  obtain ⟨next, rfl⟩ : ∃ next, further = [next] := List.length_eq_one_iff.mp (by omega)
  rw [← hfurther, List.prefix_append_right_inj, List.singleton_prefix_iff_head?_eq_some] at hinitial
  rcases Spacing.head?_texts_tiles h.text_ne_nil hlast next hinitial with hblank | hnext
  · refine (kinds_of_blank next hblank).2.2 longer hlonger ?_
    simp [← hfurther]
  · refine absurd (hlongest longer hlonger ?_) (Nat.not_le_of_lt hlength)
    rwa [← hfurther, List.prefix_append_right_inj, List.singleton_prefix_iff_head?_eq_some]

theorem Munched.spaced {tiles : List Tile} {last : List Char} (h : Munched table tiles)
    (hlast : ∀ character ∈ last, character ∈ [' ', '\t', '\r', '\n']) (offset : Nat) :
    Munched table (spacing.tiles offset tiles ++ last.map .blank) := by
  induction h generalizing offset with
  | done =>
    have hblanks : Munched table (last.map .blank ++ []) := .blanks hlast .done
    rwa [List.append_nil] at hblanks
  | blank isBlank further ih =>
    rw [Spacing.tiles, List.append_assoc]
    exact .blanks (spacing.blanks offset) (.blank isBlank (ih _))
  | digits nonempty digits maximal fits further ih =>
    rw [Spacing.tiles, List.append_assoc]
    refine .blanks (spacing.blanks offset) (.digits nonempty digits ?_ fits (ih _))
    exact further.ends_run spacing maximal hlast (fun next hmem => (kinds_of_blank next hmem).1) _
  | symbol isSymbol longest further ih =>
    rw [Spacing.tiles, List.append_assoc]
    refine .blanks (spacing.blanks offset) (.symbol isSymbol ?_ (ih _))
    exact further.longest_symbol isSymbol longest hlast
  | letters nonempty letters maximal cut further ih =>
    -- where blanks part the run, only its first part is a run still, and all else lies behind it
    have hends := further.ends_run spacing maximal hlast fun next hmem =>
      (kinds_of_blank next hmem).2.1
    obtain ⟨run, pieces, others, hsplit, _, hthen⟩ :=
      cut.exists_spaced letters (hends _) (ih _) offset
    rw [Spacing.tiles_append, List.append_assoc, cut.texts_eq, hsplit]
    exact hthen.append_munched

theorem Munched.tokenize_eq {tiles : List Tile} {line : String} (h : Munched table tiles)
    (htexts : Tile.texts tiles = line.toList) :
    tokenize table line = .ok (Tile.tokens 0 tiles ++ [⟨.endOfInput, line.utf8ByteSize⟩]) := by
  have hread := h.readAll_eq 0 false
  rw [htexts, Text.byteLength_toList, Nat.zero_add] at hread
  rw [tokenize, Lexer.start, hread]

theorem exists_munched_of_tokenize {line : String} {tokens : List Token}
    (h : tokenize table line = .ok tokens) :
    ∃ tiles, Munched table tiles ∧ Tile.texts tiles = line.toList ∧
      tokens = Tile.tokens 0 tiles ++ [⟨.endOfInput, line.utf8ByteSize⟩] := by
  have hreadable : Readable table line.toList := by
    refine ⟨0, false, ?_⟩
    unfold tokenize at h
    split at h
    · rename_i hall
      exact congrArg Prod.snd hall
    · cases h
  obtain ⟨tiles, hmunched, htexts⟩ := hreadable.exists_munched
  rw [hmunched.tokenize_eq htexts] at h
  cases h
  exact ⟨tiles, hmunched, htexts, rfl⟩

end Munched

namespace Spacing

section Line

variable {spacing : Spacing} {line : String} {tiles : List Tile}

def tilesOf (spacing : Spacing) (line : String) (tiles : List Tile) : List Tile :=
  spacing.tiles 0 tiles ++ (spacing.gap line.utf8ByteSize).map .blank

theorem texts_tilesOf (htexts : Tile.texts tiles = line.toList)
    (hproper : ∀ tile ∈ tiles, tile.text ≠ []) (h : spacing.Between 0 tiles) :
    Tile.texts (spacing.tilesOf line tiles) = (spacing.insert line).toList := by
  have hspaced := texts_tiles hproper h
  rw [Nat.zero_add, htexts, Text.byteLength_toList] at hspaced
  rw [tilesOf, Tile.texts_append, Tile.texts_map_blank, hspaced, insert, String.toList_ofList]

theorem tokens_tilesOf (hproper : ∀ tile ∈ tiles, tile.text ≠ []) (h : spacing.Between 0 tiles) :
    Tile.tokens 0 (spacing.tilesOf line tiles) = (Tile.tokens 0 tiles).map spacing.moved := by
  have htokens := tokens_tiles hproper h
  rw [bytesBefore, Nat.add_zero] at htokens
  rw [tilesOf, Tile.tokens_append, htokens, Tile.tokens_map_blank, List.append_nil]

theorem utf8ByteSize_insert (htexts : Tile.texts tiles = line.toList)
    (hproper : ∀ tile ∈ tiles, tile.text ≠ []) (h : spacing.Between 0 tiles) :
    (spacing.insert line).utf8ByteSize =
      line.utf8ByteSize + spacing.bytesUpTo line.utf8ByteSize := by
  have hbytes := byteLength_tiles hproper h
  rw [Nat.zero_add, htexts, Text.byteLength_toList, bytesBefore, Nat.zero_add] at hbytes
  rw [← Text.byteLength_toList, ← texts_tilesOf htexts hproper h, tilesOf, Tile.texts_append,
    Tile.texts_map_blank, Text.byteLength_append, hbytes, Nat.add_assoc]
  rfl

end Line

variable (spacing : Spacing) {table : KeywordTable} {line : String} {tokens : List Token}

theorem tokenize_moved (h : tokenize table line = .ok tokens)
    (hplaces : ∀ offset, spacing.gap offset ≠ [] → ∃ token ∈ tokens, token.offset = offset) :
    tokenize table (spacing.insert line) = .ok (tokens.map spacing.moved) := by
  obtain ⟨tiles, hmunched, htexts, rfl⟩ := exists_munched_of_tokenize h
  have hlength : Text.byteLength (Tile.texts tiles) = line.utf8ByteSize := by
    rw [htexts, Text.byteLength_toList]
  have hbetween : spacing.Between 0 tiles := by
    refine between_of_places fun inner hgap => ?_
    obtain ⟨token, hmem, rfl⟩ := hplaces inner hgap
    rcases List.mem_append.mp hmem with hmem | hmem
    · exact .inr (.inl ⟨token, hmem, rfl⟩)
    · rw [List.mem_singleton.mp hmem, hlength, Nat.zero_add]
      exact .inr (.inr (Nat.le_refl _))
  have hproper := hmunched.text_ne_nil
  have hspaced : Munched table (spacing.tilesOf line tiles) := hmunched.spaced (spacing.blanks _) 0
  rw [hspaced.tokenize_eq (texts_tilesOf htexts hproper hbetween),
    tokens_tilesOf hproper hbetween, utf8ByteSize_insert htexts hproper hbetween, List.map_append]
  rfl

theorem ofTokens_moved (h : tokens ≠ []) :
    Expression.ofTokens (tokens.map spacing.moved) =
      (Expression.ofTokens tokens).mapError spacing.movedError := by
  have hbody : Parser.body (tokens.map spacing.moved) = Parser.body tokens := by
    rw [Parser.body, List.map_map]
    rfl
  have hposition : ∀ index, Parser.positionAt (tokens.map spacing.moved) index =
      Parser.positionAt tokens index + spacing.bytesUpTo (Parser.positionAt tokens index) := by
    intro index
    unfold Parser.positionAt
    rw [List.getElem?_map, List.getLast?_map, List.getLast?_eq_some_getLast h]
    cases tokens[index]? <;> rfl
  unfold Expression.ofTokens
  rw [hbody]
  cases Parser.line ⟨Parser.body tokens, Parser.maxNodes⟩ with
  | ok parsed => rfl
  | error rejection =>
    change Except.error (rejection.toError _) = Except.error (spacing.movedError _)
    rw [Parser.Rejection.toError, hbody, hposition]
    rfl

/-- Blanks inserted at places of tokens leave all tokens as they are and where they belong, so what
is parsed is the same, or it is rejected for the same reason. -/
theorem tokenize_insert (h : tokenize table line = .ok tokens)
    (hplaces : ∀ offset, spacing.gap offset ≠ [] → ∃ token ∈ tokens, token.offset = offset) :
    tokenize table (spacing.insert line) = .ok (tokens.map spacing.moved) ∧
      Expression.ofTokens (tokens.map spacing.moved) =
        (Expression.ofTokens tokens).mapError spacing.movedError ∧
      (table = .standard →
        (∀ expression, Expression.parse line = .ok expression →
          Expression.parse (spacing.insert line) = .ok expression) ∧
        ∀ failure, Expression.parse line = .error failure → ∃ error, failure = .parsing error ∧
          Expression.parse (spacing.insert line) =
            .error (.parsing (spacing.movedError error))) := by
  have htokens := spacing.tokenize_moved h hplaces
  have hne : tokens ≠ [] := by
    obtain ⟨tiles, _, _, rfl⟩ := exists_munched_of_tokenize h
    simp
  have hparsed := spacing.ofTokens_moved hne
  refine ⟨htokens, hparsed, ?_⟩
  rintro rfl
  unfold Expression.parse
  rw [h, htokens]
  dsimp only
  rw [hparsed]
  cases Expression.ofTokens tokens with
  | ok expression => exact ⟨fun _ heq => heq, nofun⟩
  | error error => exact ⟨nofun, fun _ heq => ⟨error, (Except.error.inj heq).symm, rfl⟩⟩

/-- Two keywords of `4d6rokh3` are one run of letters, and a blank may part them. -/
theorem tokenize_insert_of_chained_keywords :
    let tokens := [⟨.number 4, 0⟩, ⟨.keyword .die, 1⟩, ⟨.number 6, 2⟩, ⟨.keyword .rerollOnce, 3⟩,
      ⟨.keyword .keepHighest, 5⟩, ⟨.number 3, 7⟩, ⟨.endOfInput, 8⟩]
    let spacing : Spacing :=
      ⟨fun offset => if offset = 5 then [' '] else if offset = 8 then ['\t', '\n'] else [],
        by grind⟩
    tokenize .standard "4d6rokh3" = .ok tokens ∧
      (∀ offset, spacing.gap offset ≠ [] → ∃ token ∈ tokens, token.offset = offset) ∧
      tokenize .standard "4d6ro kh3\t\n" =
        .ok [⟨.number 4, 0⟩, ⟨.keyword .die, 1⟩, ⟨.number 6, 2⟩, ⟨.keyword .rerollOnce, 3⟩,
          ⟨.keyword .keepHighest, 6⟩, ⟨.number 3, 8⟩, ⟨.endOfInput, 11⟩] ∧
      Expression.parse "4d6ro kh3\t\n" =
        .ok (.dice ⟨4, 6, [.rerollOnce none, .keep .highest 3]⟩) := by
  intro tokens spacing
  have hreads : Lexer.Reads .standard 0
      (['4'] ++ (['d'] ++ (['6'] ++ (['r', 'o'] ++ (['k', 'h'] ++ (['3'] ++ [])))))) tokens :=
    .lexeme (by decide +kernel) (by simp [UInt64.size]) <|
      .lexeme (by decide +kernel) nofun <|
      .lexeme (by decide +kernel) (by simp [UInt64.size]) <|
      .lexeme (by decide +kernel) nofun <|
      .lexeme (by decide +kernel) nofun <|
      .lexeme (by decide +kernel) (by simp [UInt64.size]) <| .done 8
  have htokens : tokenize .standard "4d6rokh3" = .ok tokens := by
    have hall : (Lexer.start .standard "4d6rokh3").readAll = (tokens, none) :=
      Lexer.readAll_of_reads hreads false
    rw [tokenize, hall]
  have hplaces : ∀ offset, spacing.gap offset ≠ [] → ∃ token ∈ tokens, token.offset = offset := by
    intro offset hgap
    by_cases hinside : offset = 5
    · exact ⟨⟨.keyword .keepHighest, 5⟩, by decide, hinside.symm⟩
    · by_cases hend : offset = 8
      · exact ⟨⟨.endOfInput, 8⟩, by decide, hend.symm⟩
      · simp [spacing, hinside, hend] at hgap
  have hinsert : spacing.insert "4d6rokh3" = "4d6ro kh3\t\n" := by decide +kernel
  have hexpression : Expression.ofTokens tokens =
      .ok (.dice ⟨4, 6, [.rerollOnce none, .keep .highest 3]⟩) := by
    decide +kernel
  have hparse : Expression.parse "4d6rokh3" =
      .ok (.dice ⟨4, 6, [.rerollOnce none, .keep .highest 3]⟩) := by
    rw [Expression.parse, htokens]
    dsimp only
    rw [hexpression]
  obtain ⟨hmoved, _, hparsed⟩ := spacing.tokenize_insert htokens hplaces
  rw [hinsert] at hmoved hparsed
  exact ⟨htokens, hplaces, hmoved, (hparsed rfl).1 _ hparse⟩

end Spacing

end DiceNotation
