import Mathlib.Data.List.ReduceOption
import DiceNotation.Proofs.Offences

/-!
# Asking a lexer

A lexer may be asked by `next` and by `nextToken` in any order. What it answers is what it would
answer to `nextToken` alone, each answer once; and what `nextToken` answers is, in order, a report
on every span of the line, until it comes to the end or to a character that has no place there.
-/
namespace DiceNotation

namespace Lexer

def nextTokens (lexer : Lexer) : Nat → List (Except LexError Token)
  | 0 => []
  | n + 1 => lexer.nextToken.1 :: lexer.nextToken.2.nextTokens n

inductive Call
  | next
  | nextToken
  deriving DecidableEq

def ask (lexer : Lexer) : Call → Option (Except LexError Token) × Lexer
  | .next => lexer.next
  | .nextToken => (some lexer.nextToken.1, lexer.nextToken.2)

def answers (lexer : Lexer) : List Call → List (Option (Except LexError Token))
  | [] => []
  | call :: calls => (lexer.ask call).1 :: (lexer.ask call).2.answers calls

/-- An error, or the end of input: what `next` stops at. -/
def IsLast : Except LexError Token → Prop
  | .error _ => True
  | .ok token => token.lexeme = .endOfInput

section Finished

variable (lexer : Lexer) (finished : Bool)

theorem nextToken_finished :
    nextToken { lexer with finished := finished } =
      (lexer.nextToken.1, { lexer.nextToken.2 with finished := finished }) := by
  have hskip : skipBlanks { lexer with finished := finished } =
      { lexer.skipBlanks with finished := finished } := rfl
  rw [nextToken, hskip, nextToken]
  unfold readToken
  dsimp only
  split
  · rfl
  · split
    · rfl
    · split <;> rfl
    · rfl

theorem nextTokens_finished (n : Nat) :
    nextTokens { lexer with finished := finished } n = lexer.nextTokens n := by
  induction n generalizing lexer with
  | zero => rfl
  | succ n ih => rw [nextTokens, nextToken_finished, nextTokens, ih]

end Finished

theorem next_of_finished {lexer : Lexer} (h : lexer.finished = true) :
    lexer.next = (none, lexer) := by
  rw [next, if_pos h]

theorem next_of_not_finished {lexer : Lexer} (h : lexer.finished = false) :
    ∃ finished, lexer.next =
        (some lexer.nextToken.1, { lexer.nextToken.2 with finished := finished }) ∧
      (finished = true ↔ IsLast lexer.nextToken.1) := by
  rw [next, if_neg (by simp [h])]
  rcases lexer.nextToken with ⟨error | token, after⟩
  · exact ⟨true, rfl, by simp [IsLast]⟩
  · exact ⟨_, rfl, by simp [IsLast]⟩

theorem reduceOption_answers (lexer : Lexer) (calls : List Call) :
    (lexer.answers calls).reduceOption =
      lexer.nextTokens (lexer.answers calls).reduceOption.length := by
  induction calls generalizing lexer with
  | nil => rfl
  | cons call calls ih =>
    cases call with
    | nextToken =>
      rw [answers, ask, List.reduceOption_cons_of_some, List.length_cons, nextTokens, ← ih]
    | next =>
      rw [answers, ask]
      cases hfinished : lexer.finished with
      | true => rw [next_of_finished hfinished, List.reduceOption_cons_of_none, ← ih]
      | false =>
        obtain ⟨finished, hnext, -⟩ := next_of_not_finished hfinished
        have hafter := ih { lexer.nextToken.2 with finished := finished }
        rw [hnext, List.reduceOption_cons_of_some, List.length_cons, nextTokens,
          ← nextTokens_finished _ finished, ← hafter]

theorem finished_nextToken (lexer : Lexer) :
    lexer.nextToken.2.finished = lexer.finished :=
  congrArg (·.2.finished) (lexer.nextToken_finished lexer.finished)

theorem ask_eq_none_iff (lexer : Lexer) (call : Call) :
    (lexer.ask call).1 = none ↔ call = .next ∧ lexer.finished = true := by
  cases call with
  | nextToken => simp [ask]
  | next =>
    cases hfinished : lexer.finished with
    | true => simp [ask, next_of_finished hfinished]
    | false =>
      obtain ⟨finished, hnext, -⟩ := next_of_not_finished hfinished
      simp [ask, hnext]

theorem finished_ask_iff (lexer : Lexer) (call : Call) :
    (lexer.ask call).2.finished = true ↔
      lexer.finished = true ∨
        call = .next ∧ ∃ answer, (lexer.ask call).1 = some answer ∧ IsLast answer := by
  cases call with
  | nextToken => simp [ask, finished_nextToken]
  | next =>
    cases hfinished : lexer.finished with
    | true => simp [ask, next_of_finished hfinished, hfinished]
    | false =>
      obtain ⟨finished, hnext, hlast⟩ := next_of_not_finished hfinished
      simp [ask, hnext, hlast]

theorem answers_eq_none_iff (lexer : Lexer) (calls : List Call) (i : Nat) :
    (lexer.answers calls)[i]? = some none ↔
      calls[i]? = some .next ∧
        (lexer.finished = true ∨ ∃ j < i, calls[j]? = some .next ∧
          ∃ answer, (lexer.answers calls)[j]? = some (some answer) ∧ IsLast answer) := by
  induction calls generalizing lexer i with
  | nil => simp [answers]
  | cons call calls ih =>
    cases i with
    | zero => simp [answers, ask_eq_none_iff]
    | succ i =>
      rw [answers, List.getElem?_cons_succ, List.getElem?_cons_succ, ih, finished_ask_iff,
        Nat.exists_lt_succ_left, or_assoc]
      simp only [List.getElem?_cons_zero, List.getElem?_cons_succ, Option.some.injEq]

end Lexer

/-! ### What the calls of `nextToken` report -/

namespace Tile

/-- The report on a span: its token, unless it is a number that is too large. -/
def report (offset : Nat) (text : List Char) : Lexeme → Except LexError Token
  | .number value =>
    if value < UInt64.size then .ok ⟨.number value, offset⟩
    else .error (.numberTooLarge offset (String.ofList text))
  | lexeme => .ok ⟨lexeme, offset⟩

/-- The reports on tiles of which the first starts at an offset. -/
def reports : Nat → List Tile → List (Except LexError Token)
  | _, [] => []
  | offset, blank character :: tiles => reports (offset + character.utf8Size) tiles
  | offset, span text lexeme :: tiles =>
    report offset text lexeme :: reports (offset + Text.byteLength text) tiles

theorem reports_append (left right : List Tile) (offset : Nat) :
    reports offset (left ++ right) =
      reports offset left ++ reports (offset + Text.byteLength (texts left)) right := by
  induction left generalizing offset with
  | nil => simp [reports, Text.byteLength]
  | cons tile left ih =>
    cases tile with
    | blank character => simp [reports, Text.byteLength, ih, Nat.add_assoc]
    | span text lexeme => simp [reports, Text.byteLength_append, ih, Nat.add_assoc]

end Tile

/-- The report where the spans end: at the end of the line or at a character that has no place in
it. -/
def lastReport (offset : Nat) : List Char → Except LexError Token
  | [] => .ok ⟨.endOfInput, offset⟩
  | first :: _ => .error (.unexpectedCharacter offset first)

/-- Tiles as long as they can be, numbers of any size among them, with the rest of the text behind
them. A run ends where a character of another kind follows. -/
inductive Surveyed (table : KeywordTable) (rest : List Char) : List Tile → Prop
  | done : Surveyed table rest []
  | blank {character : Char} {tiles : List Tile}
      (isBlank : character ∈ [' ', '\t', '\r', '\n']) (further : Surveyed table rest tiles) :
      Surveyed table rest (.blank character :: tiles)
  | digits {run : List Char} {tiles : List Tile} (nonempty : run ≠ [])
      (digits : ∀ character ∈ run, character.isDigit = true)
      (maximal : ∀ next ∈ (Tile.texts tiles ++ rest).head?, next.isDigit = false)
      (further : Surveyed table rest tiles) :
      Surveyed table rest (.span run (.number (Nat.ofDigitChars 10 run 0)) :: tiles)
  | symbol {text : List Char} {lexeme : Lexeme} {tiles : List Tile}
      (isSymbol : (text, lexeme) ∈ symbols)
      (longest : ∀ longer ∈ symbols, longer.1 <+: text ++ (Tile.texts tiles ++ rest) →
        longer.1.length ≤ text.length)
      (further : Surveyed table rest tiles) :
      Surveyed table rest (.span text lexeme :: tiles)
  | letters {run : List Char} {pieces tiles : List Tile} (nonempty : run ≠ [])
      (letters : ∀ character ∈ run, character.isAlpha = true)
      (maximal : ∀ next ∈ (Tile.texts tiles ++ rest).head?, next.isAlpha = false)
      (cut : Cut table run pieces) (further : Surveyed table rest tiles) :
      Surveyed table rest (pieces ++ tiles)

namespace Lexer

variable {table : KeywordTable} {offset : Nat} {finished : Bool}

theorem nextTokens_blank {first : Char} {text : List Char} (h : isBlank first = true) (n : Nat) :
    nextTokens ⟨table, first :: text, offset, finished⟩ n =
      nextTokens ⟨table, text, offset + 1, finished⟩ n := by
  cases n with
  | zero => rfl
  | succ n => rw [nextTokens, nextTokens, nextToken_blank h]

theorem nextToken_span {word text : List Char} {lexeme : Lexeme}
    (hread : Lexeme.read? table (word ++ text) = some (lexeme, word.length)) :
    nextToken ⟨table, word ++ text, offset, finished⟩ =
      (Tile.report offset word lexeme, ⟨table, text, offset + word.length, finished⟩) := by
  by_cases hfits : ∀ value, lexeme = .number value → value < UInt64.size
  · rw [nextToken_lexeme hread hfits]
    cases lexeme with
    | number value => rw [Tile.report, if_pos (hfits value rfl)]
    | _ => rfl
  · simp only [not_forall, Nat.not_lt] at hfits
    obtain ⟨value, rfl, hlarge⟩ := hfits
    obtain ⟨first, others, htext⟩ : ∃ first others, word ++ text = first :: others := by
      cases h : word ++ text with
      | nil => rw [h] at hread; cases hread
      | cons first others => exact ⟨first, others, rfl⟩
    have hblank : isBlank first = false := by
      rw [htext] at hread
      exact not_isBlank_of_read? hread
    rw [htext, nextToken_of_not_isBlank hblank, ← htext, readToken_tooLarge hread hlarge,
      Tile.report, if_neg (Nat.not_lt.mpr hlarge), advance]
    dsimp only
    rw [List.take_left, List.drop_left]

theorem nextTokens_span {word text : List Char} {lexeme : Lexeme}
    (hread : Lexeme.read? table (word ++ text) = some (lexeme, word.length))
    (hword : ∀ character ∈ word, character.utf8Size = 1) (n : Nat) :
    nextTokens ⟨table, word ++ text, offset, finished⟩ (n + 1) =
      Tile.report offset word lexeme ::
        nextTokens ⟨table, text, offset + Text.byteLength word, finished⟩ n := by
  rw [nextTokens, nextToken_span hread, byteLength_of_utf8Size hword]

theorem nextTokens_cut {run rest : List Char} {pieces : List Tile} (h : Cut table run pieces)
    (hrun : ∀ character ∈ run, character.isAlpha = true)
    (hrest : ∀ next ∈ rest.head?, next.isAlpha = false) (offset n : Nat) :
    nextTokens ⟨table, run ++ rest, offset, finished⟩ ((Tile.reports offset pieces).length + n) =
      Tile.reports offset pieces ++
        nextTokens ⟨table, rest, offset + Text.byteLength run, finished⟩ n := by
  induction h generalizing offset with
  | done => simp [Tile.reports, Text.byteLength]
  | @spelling start further keyword pieces hne hspelled hlongest _ ih =>
    rw [List.forall_mem_append] at hrun
    have hprefix := KeywordTable.longestPrefix?_append_eq_some_iff.mpr ⟨hne, hspelled, hlongest⟩
    have hread : Lexeme.read? table (start ++ (further ++ rest)) =
        some (.keyword keyword, start.length) := by
      refine Lexeme.read?_letters hne hrun.1 ?_
      rw [takeWhile_append_of_stops hrun.2 hrest, hprefix]
    have hascii := fun character hmem => utf8Size_of_isAlpha (hrun.1 character hmem)
    rw [Tile.reports, List.length_cons, Nat.add_right_comm, List.append_assoc,
      nextTokens_span hread hascii, ih hrun.2, Text.byteLength_append, Nat.add_assoc]
    rfl
  | @word text hne hunspelled =>
    have hnone := KeywordTable.longestPrefix?_eq_none_iff.mpr hunspelled
    have hread := Lexeme.read?_word hne hrun hrest hnone
    have hascii := fun character hmem => utf8Size_of_isAlpha (hrun character hmem)
    rw [Tile.reports, Tile.reports, List.length_singleton, Nat.add_comm,
      nextTokens_span hread hascii]
    rfl

theorem nextTokens_last {rest : List Char} (hrest : ∀ next ∈ rest.head?, ¬IsNotation next)
    (n : Nat) :
    nextTokens ⟨table, rest, offset, finished⟩ n = List.replicate n (lastReport offset rest) := by
  have hstays : nextToken ⟨table, rest, offset, finished⟩ =
      (lastReport offset rest, ⟨table, rest, offset, finished⟩) := by
    cases rest with
    | nil => rfl
    | cons first rest => exact nextToken_strange rest (hrest first rfl)
  induction n with
  | zero => rfl
  | succ n ih => rw [nextTokens, hstays, ih, List.replicate_succ]

end Lexer

namespace Surveyed

variable {table : KeywordTable} {rest : List Char} {tiles : List Tile}

/-- The spans are reported in order, once each, and then the same over and over. -/
theorem nextTokens_eq (h : Surveyed table rest tiles)
    (hrest : ∀ next ∈ rest.head?, ¬IsNotation next) (offset : Nat) (finished : Bool) (n : Nat) :
    Lexer.nextTokens ⟨table, Tile.texts tiles ++ rest, offset, finished⟩
        ((Tile.reports offset tiles).length + n) =
      Tile.reports offset tiles ++
        List.replicate n (lastReport (offset + Text.byteLength (Tile.texts tiles)) rest) := by
  induction h generalizing offset with
  | done => simpa [Tile.reports, Text.byteLength] using Lexer.nextTokens_last hrest n
  | @blank character tiles hblank _ ih =>
    have hsize := utf8Size_of_blank character hblank
    rw [Tile.texts_blank, List.cons_append, Lexer.nextTokens_blank (mem_blanks_iff.mp hblank),
      Tile.reports, Text.byteLength, hsize, ih, Nat.add_assoc]
  | @digits run tiles hne hdigits hmaximal _ ih =>
    have hread : Lexeme.read? table (run ++ (Tile.texts tiles ++ rest)) =
        some (.number (Nat.ofDigitChars 10 run 0), run.length) :=
      Lexeme.read?_digits hne hdigits hmaximal
    have hascii := fun character hmem => utf8Size_of_isDigit (hdigits character hmem)
    rw [Tile.texts_span, Tile.reports, List.length_cons, Nat.add_right_comm, List.append_assoc,
      Lexer.nextTokens_span hread hascii, ih, Text.byteLength_append, Nat.add_assoc]
    rfl
  | @symbol text lexeme tiles hmem hlongest _ ih =>
    have hread := Lexeme.read?_of_symbol table hmem hlongest
    rw [Tile.texts_span, Tile.reports, List.length_cons, Nat.add_right_comm, List.append_assoc,
      Lexer.nextTokens_span hread (utf8Size_of_symbol _ hmem), ih, Text.byteLength_append,
      Nat.add_assoc]
    rfl
  | letters hne hletters hmaximal hcut _ ih =>
    rw [Tile.texts_append, hcut.texts_eq, List.append_assoc, Tile.reports_append, hcut.texts_eq,
      List.length_append, Nat.add_assoc, Lexer.nextTokens_cut hcut hletters hmaximal, ih,
      Text.byteLength_append, List.append_assoc, Nat.add_assoc]

theorem isNotation (h : Surveyed table rest tiles) :
    ∀ character ∈ Tile.texts tiles, IsNotation character := by
  induction h with
  | done => simp
  | blank hblank _ ih => exact List.forall_mem_cons.mpr ⟨.inr (.inr (.inl hblank)), ih⟩
  | digits _ hdigits _ _ ih =>
    exact List.forall_mem_append.mpr
      ⟨fun character hmem => .inr (.inl (hdigits character hmem)), ih⟩
  | symbol hmem _ _ ih =>
    exact List.forall_mem_append.mpr
      ⟨fun character hword => (isNotation_of_mem_symbols _ hmem character hword).1, ih⟩
  | letters _ hletters _ hcut _ ih =>
    rw [Tile.texts_append, hcut.texts_eq]
    exact List.forall_mem_append.mpr ⟨fun character hmem => .inl (hletters character hmem), ih⟩

end Surveyed

theorem exists_surveyed (table : KeywordTable) (text : List Char) :
    ∃ tiles rest, Surveyed table rest tiles ∧ text = Tile.texts tiles ++ rest ∧
      ∀ next ∈ rest.head?, ¬IsNotation next := by
  -- each tile, and each run of letters, leaves a shorter text
  induction hsize : text.length using Nat.strongRecOn generalizing text with
  | _ size ih =>
    cases text with
    | nil => exact ⟨[], [], .done, rfl, nofun⟩
    | cons first text =>
      have hshorter {start others : List Char} (htext : first :: text = start ++ others)
          (hne : start ≠ []) : ∃ tiles rest, Surveyed table rest tiles ∧
            others = Tile.texts tiles ++ rest ∧ ∀ next ∈ rest.head?, ¬IsNotation next := by
        have hpos := List.length_pos_iff.mpr hne
        have hlength := congrArg List.length htext
        rw [List.length_append] at hlength
        exact ih others.length (by omega) others rfl
      cases hblank : Lexer.isBlank first with
      | true =>
        obtain ⟨tiles, rest, hfurther, rfl, hrest⟩ :=
          hshorter List.singleton_append.symm (List.cons_ne_nil first [])
        exact ⟨_, rest, .blank (mem_blanks_iff.mpr hblank) hfurther, rfl, hrest⟩
      | false =>
        cases hdigit : first.isDigit with
        | true =>
          obtain ⟨run, others, htext, hne, hdigits, hends⟩ := exists_run text hdigit
          obtain ⟨tiles, rest, hfurther, rfl, hrest⟩ := hshorter htext hne
          refine ⟨_, rest, .digits hne hdigits hends hfurther, ?_, hrest⟩
          rw [htext, Tile.texts_span, List.append_assoc]
        | false =>
          cases hletter : first.isAlpha with
          | true =>
            obtain ⟨run, others, htext, hne, hletters, hends⟩ := exists_run text hletter
            obtain ⟨tiles, rest, hfurther, rfl, hrest⟩ := hshorter htext hne
            obtain ⟨pieces, hcut⟩ := exists_cut table run
            refine ⟨_, rest, .letters hne hletters hends hcut hfurther, ?_, hrest⟩
            rw [htext, Tile.texts_append, hcut.texts_eq, List.append_assoc]
          | false =>
            cases hsymbol : Lexeme.symbol? (first :: text) with
            | some found =>
              obtain ⟨word, others, htext, -, hmem, hlongest⟩ := Lexeme.symbol?_eq_some hsymbol
              have hne : word ≠ [] := by
                rintro rfl
                simp [symbols] at hmem
              obtain ⟨tiles, rest, hfurther, rfl, hrest⟩ := hshorter htext hne
              rw [htext] at hlongest
              refine ⟨_, rest, .symbol hmem hlongest hfurther, ?_, hrest⟩
              rw [htext, Tile.texts_span, List.append_assoc]
            | none =>
              have hstrange : ¬IsNotation first := by
                have hnone : (Lexeme.symbol? (first :: text)).isSome = false := by
                  rw [hsymbol]
                  rfl
                rw [IsNotation, ← Lexeme.isSome_symbol?_iff, hnone, mem_blanks_iff, hblank, hdigit,
                  hletter]
                simp
              exact ⟨[], first :: text, .done, rfl, by simpa using hstrange⟩

/-- However a lexer is asked, what it answers is what it would answer to `nextToken` alone. A call
of `next` goes without an answer just if an error or the end of input was the answer to an earlier
one. And `nextToken` reports every span of the line once, in order, up to the end or to the first
character that has no place in the line, which it reports ever after. -/
theorem Lexer.answers_start (table : KeywordTable) (line : String) :
    (∀ calls, ((start table line).answers calls).reduceOption =
      (start table line).nextTokens ((start table line).answers calls).reduceOption.length) ∧
    (∀ (calls : List Call) (i : Nat), ((start table line).answers calls)[i]? = some none ↔
      calls[i]? = some .next ∧ ∃ j < i, calls[j]? = some .next ∧
        ∃ answer, ((start table line).answers calls)[j]? = some (some answer) ∧ IsLast answer) ∧
    ∃ tiles rest, Surveyed table rest tiles ∧ line.toList = Tile.texts tiles ++ rest ∧
      (∀ character ∈ Tile.texts tiles, IsNotation character) ∧
      (∀ next ∈ rest.head?, ¬IsNotation next) ∧
      ∀ n, (start table line).nextTokens ((Tile.reports 0 tiles).length + n) =
        Tile.reports 0 tiles ++
          List.replicate n (lastReport (Text.byteLength (Tile.texts tiles)) rest) := by
  refine ⟨reduceOption_answers _, fun calls i => ?_, ?_⟩
  · simpa [start] using answers_eq_none_iff (start table line) calls i
  · obtain ⟨tiles, rest, hsurveyed, htext, hrest⟩ := exists_surveyed table line.toList
    refine ⟨tiles, rest, hsurveyed, htext, hsurveyed.isNotation, hrest, fun n => ?_⟩
    have hreports := hsurveyed.nextTokens_eq hrest 0 false n
    rwa [Nat.zero_add, ← htext] at hreports

/-- An error does not stop `nextToken`, and `next` has no answer after one. -/
example :
    (Lexer.start .standard "1 99999999999999999999d").answers
        [.nextToken, .next, .next, .nextToken, .next, .nextToken, .nextToken] =
      [some (.ok ⟨.number 1, 0⟩), some (.error (.numberTooLarge 2 "99999999999999999999")), none,
        some (.ok ⟨.keyword .die, 22⟩), none, some (.ok ⟨.endOfInput, 23⟩),
        some (.ok ⟨.endOfInput, 23⟩)] := by
  decide +kernel

end DiceNotation
