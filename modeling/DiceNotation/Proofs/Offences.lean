import DiceNotation.Proofs.Tiling

/-!
# What cannot be read

A line cannot be read when some character has no place in dice notation, or when a run of digits is
no 64-bit number. Reading fails with the first of them in the line, whatever the keywords are.
-/
namespace DiceNotation

/-- The characters that may stand in a line: letters, digits, blanks, and those of symbols. -/
def IsNotation (character : Char) : Prop :=
  character.isAlpha = true ∨ character.isDigit = true ∨ character ∈ [' ', '\t', '\r', '\n'] ∨
    character ∈ ['<', '>', '=', '+', '-', '*', '/', '(', ')', '!', '%']

/-- What is wrong with a text, with the byte at which it stands. A run of digits is as long as it
can be. -/
inductive Offence : List Char → LexError → Prop
  | character (before : List Char) {character : Char} (after : List Char)
      (strange : ¬IsNotation character) :
      Offence (before ++ character :: after)
        (.unexpectedCharacter (Text.byteLength before) character)
  | number (before : List Char) {run : List Char} (after : List Char) (nonempty : run ≠ [])
      (digits : ∀ character ∈ run, character.isDigit = true)
      (starts : ∀ last ∈ before.getLast?, last.isDigit = false)
      (ends : ∀ next ∈ after.head?, next.isDigit = false)
      (large : UInt64.size ≤ Nat.ofDigitChars 10 run 0) :
      Offence (before ++ (run ++ after))
        (.numberTooLarge (Text.byteLength before) (String.ofList run))

/-- What is wrong with a text, while all else that is wrong with it stands further on. -/
def FirstOffence (text : List Char) (error : LexError) : Prop :=
  Offence text error ∧
    ∀ other, Offence text other → other ≠ error → error.position < other.position

def LexError.behind (bytes : Nat) : LexError → LexError
  | unexpectedCharacter position character => unexpectedCharacter (bytes + position) character
  | numberTooLarge position digits => numberTooLarge (bytes + position) digits

namespace LexError

@[simp] theorem position_behind (bytes : Nat) (error : LexError) :
    (error.behind bytes).position = bytes + error.position := by
  cases error <;> rfl

@[simp] theorem behind_zero (error : LexError) : error.behind 0 = error := by
  cases error <;> simp [behind]

theorem behind_behind (bytes more : Nat) (error : LexError) :
    (error.behind more).behind bytes = error.behind (bytes + more) := by
  cases error <;> simp [behind, Nat.add_assoc]

end LexError

/-- No run of digits goes on from the one text into the other. -/
def NoRunAcross (start rest : List Char) : Prop :=
  ∀ last ∈ start.getLast?, ∀ next ∈ rest.head?, last.isDigit = true → next.isDigit = false

section Append

variable {start rest : List Char} {error other : LexError}

theorem NoRunAcross.of_notDigit (h : ∀ character ∈ start, character.isDigit = false) :
    NoRunAcross start rest := by
  intro last hlast next _ hdigit
  rw [h last (List.mem_of_getLast? hlast)] at hdigit
  cases hdigit

theorem NoRunAcross.of_ends (h : ∀ next ∈ rest.head?, next.isDigit = false) :
    NoRunAcross start rest := fun _ _ next hnext _ => h next hnext

theorem Offence.of_start (hjoin : NoRunAcross start rest) (h : Offence start error) :
    Offence (start ++ rest) error := by
  cases h with
  | character before after strange =>
    rw [List.append_assoc]
    exact .character before _ strange
  | @number before run after nonempty digits starts ends large =>
    rw [List.append_assoc, List.append_assoc]
    refine .number before _ nonempty digits starts ?_ large
    cases after with
    | cons next after => exact ends
    | nil =>
      intro next hnext
      obtain ⟨last, hlast⟩ : ∃ last, run.getLast? = some last :=
        ⟨_, List.getLast?_eq_some_getLast nonempty⟩
      refine hjoin last ?_ next hnext (digits last (List.mem_of_getLast? hlast))
      simp [hlast]

theorem Offence.of_rest (hjoin : NoRunAcross start rest) (h : Offence rest error) :
    Offence (start ++ rest) (error.behind (Text.byteLength start)) := by
  cases h with
  | character before after strange =>
    rw [← List.append_assoc, LexError.behind, ← Text.byteLength_append]
    exact .character _ after strange
  | @number before run after nonempty digits starts ends large =>
    rw [← List.append_assoc, LexError.behind, ← Text.byteLength_append]
    refine .number _ after nonempty digits ?_ ends large
    cases before with
    | cons first before =>
      rw [List.getLast?_append, List.getLast?_eq_some_getLast (List.cons_ne_nil first before)]
      exact starts
    | nil =>
      obtain ⟨next, run, rfl⟩ := List.exists_cons_of_ne_nil nonempty
      intro last hlast
      rw [List.append_nil] at hlast
      have hnext := digits next (.head _)
      rw [← Bool.not_eq_true]
      intro hdigit
      rw [hjoin last hlast next rfl hdigit] at hnext
      cases hnext

/-- What is wrong with two texts in a row, between which no run of digits goes on, is what is wrong
with either. -/
theorem Offence.of_append (hjoin : NoRunAcross start rest) (h : Offence (start ++ rest) error) :
    Offence start error ∨
      ∃ other, Offence rest other ∧ error = other.behind (Text.byteLength start) := by
  generalize htext : start ++ rest = text at h
  cases h with
  | @character before character after strange =>
    rcases List.append_eq_append_iff.mp htext with ⟨between, rfl, rfl⟩ | ⟨between, rfl, hafter⟩
    · refine .inr ⟨_, .character between after strange, ?_⟩
      rw [LexError.behind, Text.byteLength_append]
    · cases between with
      | nil =>
        rw [List.nil_append] at hafter
        rw [← hafter, List.append_nil]
        exact .inr ⟨_, .character [] after strange, rfl⟩
      | cons first between =>
        cases hafter
        exact .inl (.character before between strange)
  | @number before run after nonempty digits starts ends large =>
    rcases List.append_eq_append_iff.mp htext with ⟨between, rfl, rfl⟩ | ⟨between, rfl, hafter⟩
    · refine .inr ⟨_, .number between after nonempty digits ?_ ends large, ?_⟩
      · intro last hlast
        refine starts last ?_
        rw [List.getLast?_append, Option.mem_def.mp hlast]
        rfl
      · rw [LexError.behind, Text.byteLength_append]
    · rcases List.append_eq_append_iff.mp hafter with ⟨more, rfl, rfl⟩ | ⟨more, rfl, rfl⟩
      · refine .inl (.number before more nonempty digits starts (fun next hnext => ?_) large)
        refine ends next ?_
        rw [List.head?_append, Option.mem_def.mp hnext]
        rfl
      · rw [List.forall_mem_append] at digits
        rcases List.eq_nil_or_concat between with rfl | ⟨others, last, rfl⟩
        · rw [List.append_nil]
          exact .inr ⟨_, .number [] after nonempty digits.2 nofun ends large, rfl⟩
        · cases more with
          | nil =>
            rw [List.append_nil] at nonempty large ⊢
            have hoffence := Offence.number before [] nonempty digits.1 starts nofun large
            rw [List.append_nil] at hoffence
            exact .inl hoffence
          | cons next more =>
            have hlast := digits.1 last (by simp)
            have hnext := digits.2 next (.head _)
            rw [hjoin last (by simp) next rfl hlast] at hnext
            cases hnext

theorem not_offence_of_notation (hplace : ∀ character ∈ start, IsNotation character)
    (hdigit : ∀ character ∈ start, character.isDigit = false) : ¬Offence start error := by
  intro h
  cases h with
  | character before after strange => exact strange (hplace _ (by simp))
  | @number before run after nonempty digits _ _ _ =>
    obtain ⟨first, run, rfl⟩ := List.exists_cons_of_ne_nil nonempty
    have hfirst := hdigit first (by simp)
    rw [digits first (.head _)] at hfirst
    cases hfirst

theorem Offence.of_digits (hdigits : ∀ character ∈ start, character.isDigit = true)
    (h : Offence start error) :
    UInt64.size ≤ Nat.ofDigitChars 10 start 0 ∧
      error = .numberTooLarge 0 (String.ofList start) := by
  cases h with
  | character before after strange => exact absurd (.inr (.inl (hdigits _ (by simp)))) strange
  | @number before run after _ _ starts ends large =>
    have hbefore : before = [] := by
      rcases List.eq_nil_or_concat before with rfl | ⟨others, last, rfl⟩
      · rfl
      · have hlast := hdigits last (by simp)
        rw [starts last (by simp)] at hlast
        cases hlast
    have hafter : after = [] := by
      cases after with
      | nil => rfl
      | cons next after =>
        have hnext := hdigits next (by simp)
        rw [ends next rfl] at hnext
        cases hnext
    subst hbefore hafter
    rw [List.nil_append, List.append_nil]
    exact ⟨large, rfl⟩

theorem Offence.of_singleton {first : Char}
    (hdigit : ∀ character ∈ [first], character.isDigit = false) (h : Offence [first] error) :
    error = .unexpectedCharacter 0 first := by
  generalize htext : [first] = text at h hdigit
  cases h with
  | @character before character after _ =>
    cases before with
    | nil =>
      cases htext
      rfl
    | cons other before => simp at htext
  | @number before run after nonempty digits _ _ _ =>
    obtain ⟨next, run, rfl⟩ := List.exists_cons_of_ne_nil nonempty
    have hnext := hdigit next (by simp)
    rw [digits next (.head _)] at hnext
    cases hnext

theorem FirstOffence.of_rest (hjoin : NoRunAcross start rest)
    (hstart : ∀ other, ¬Offence start other) (h : FirstOffence rest error) :
    FirstOffence (start ++ rest) (error.behind (Text.byteLength start)) := by
  refine ⟨h.1.of_rest hjoin, fun other hother hne => ?_⟩
  rcases hother.of_append hjoin with hother | ⟨further, hfurther, rfl⟩
  · exact absurd hother (hstart other)
  · have hlt := h.2 further hfurther fun heq => hne (heq ▸ rfl)
    rw [LexError.position_behind, LexError.position_behind]
    exact Nat.add_lt_add_left hlt _

theorem FirstOffence.of_start (hjoin : NoRunAcross start rest) (h : Offence start error)
    (honly : ∀ other, Offence start other → other = error)
    (hposition : error.position < Text.byteLength start) : FirstOffence (start ++ rest) error := by
  refine ⟨h.of_start hjoin, fun other hother hne => ?_⟩
  rcases hother.of_append hjoin with hother | ⟨further, -, rfl⟩
  · exact absurd (honly other hother) hne
  · rw [LexError.position_behind]
    omega

end Append

/-- What a text comes to with respect to what is wrong with it: nothing, or what is wrong first. -/
def Judged (text : List Char) : Option LexError → Prop
  | none => ∀ error, ¬Offence text error
  | some error => FirstOffence text error

theorem Judged.of_rest {start rest : List Char} {verdict : Option LexError}
    (hjoin : NoRunAcross start rest) (hstart : ∀ other, ¬Offence start other)
    (h : Judged rest verdict) :
    Judged (start ++ rest) (verdict.map (LexError.behind (Text.byteLength start))) := by
  cases verdict with
  | none =>
    intro error herror
    rcases herror.of_append hjoin with herror | ⟨other, hother, -⟩
    · exact hstart error herror
    · exact h other hother
  | some error => exact FirstOffence.of_rest hjoin hstart h

theorem Judged.exists_eq_some_iff {text : List Char} {verdict : Option LexError}
    (h : Judged text verdict) : (∃ error, verdict = some error) ↔ ∃ error, Offence text error := by
  cases verdict with
  | none =>
    constructor
    · rintro ⟨error, ⟨⟩⟩
    · rintro ⟨error, herror⟩
      exact absurd herror (h error)
  | some first => exact ⟨fun _ => ⟨first, h.1⟩, fun _ => ⟨first, rfl⟩⟩

theorem Judged.eq_some_iff {text : List Char} {verdict : Option LexError} {error : LexError}
    (h : Judged text verdict) : verdict = some error ↔ FirstOffence text error := by
  constructor
  · rintro rfl
    exact h
  · intro herror
    cases verdict with
    | none => exact absurd herror.1 (h error)
    | some first =>
      -- of two that both come first, neither can come before the other
      refine congrArg some (Decidable.byContradiction fun hne => ?_)
      have hlt := h.2 error herror.1 (Ne.symm hne)
      have hlt' := herror.2 first h.1 hne
      omega

/-- A symbol is read where one of their characters stands, and nowhere else. -/
theorem Lexeme.isSome_symbol?_iff {first : Char} {text : List Char} :
    (symbol? (first :: text)).isSome = true ↔
      first ∈ ['<', '>', '=', '+', '-', '*', '/', '(', ')', '!', '%'] := by
  constructor
  · intro h
    have hfirst : ∀ symbol ∈ symbols, ∀ character ∈ symbol.1.head?,
        character ∈ ['<', '>', '=', '+', '-', '*', '/', '(', ')', '!', '%'] := by simp [symbols]
    obtain ⟨⟨lexeme, length⟩, hfound⟩ := Option.isSome_iff_exists.mp h
    obtain ⟨word, rest, htext, rfl, hmem, -⟩ := symbol?_eq_some hfound
    cases word with
    | nil => simp [symbols] at hmem
    | cons character word =>
      cases htext
      exact hfirst _ hmem first rfl
  · intro h
    have hsingle : ∀ character ∈ ['<', '>', '=', '+', '-', '*', '/', '(', ')', '!', '%'],
        ∃ lexeme, ([character], lexeme) ∈ symbols := by simp [symbols]
    obtain ⟨lexeme, hmem⟩ := hsingle first h
    exact isSome_symbol? hmem

theorem isNotation_of_mem_symbols : ∀ symbol ∈ symbols, ∀ character ∈ symbol.1,
    IsNotation character ∧ character.isDigit = false := by
  simp [symbols, IsNotation]

namespace Lexer

variable {table : KeywordTable} {offset : Nat} {finished : Bool}

theorem nextToken_strange {first : Char} (text : List Char) (h : ¬IsNotation first) :
    nextToken ⟨table, first :: text, offset, finished⟩ =
      (.error (.unexpectedCharacter offset first), ⟨table, first :: text, offset, finished⟩) := by
  simp only [IsNotation, not_or, Bool.not_eq_true, mem_blanks_iff] at h
  obtain ⟨hletter, hdigit, hblank, hsymbol⟩ := h
  have hread : Lexeme.read? table (first :: text) = none := by
    rw [Lexeme.read?_symbol hdigit hletter, ← Option.not_isSome_iff_eq_none,
      Lexeme.isSome_symbol?_iff]
    exact hsymbol
  rw [nextToken_of_not_isBlank hblank]
  simp [readToken, hread]

theorem readAll_strange {first : Char} (text : List Char) (h : ¬IsNotation first) :
    readAll ⟨table, first :: text, offset, finished⟩ =
      ([], some (.unexpectedCharacter offset first)) := by
  rw [readAll_eq, nextToken_strange text h]

theorem readAll_tooLarge {run rest : List Char} (hne : run ≠ [])
    (hdigits : ∀ character ∈ run, character.isDigit = true)
    (hends : ∀ next ∈ rest.head?, next.isDigit = false)
    (hlarge : UInt64.size ≤ Nat.ofDigitChars 10 run 0) :
    readAll ⟨table, run ++ rest, offset, finished⟩ =
      ([], some (.numberTooLarge offset (String.ofList run))) := by
  have hread : Lexeme.read? table (run ++ rest) =
      some (.number (Nat.ofDigitChars 10 run 0), run.length) :=
    Lexeme.read?_digits hne hdigits hends
  obtain ⟨first, others, rfl⟩ := List.exists_cons_of_ne_nil hne
  rw [List.cons_append] at hread ⊢
  rw [readAll_eq, nextToken_of_not_isBlank (not_isBlank_of_read? hread),
    readToken_tooLarge hread hlarge]
  simp

end Lexer

/-- Reading a text ends with what is wrong with it first, if anything is. The keywords make no
difference to that, nor does the place of the text in its line. -/
def ReadAsJudged (text : List Char) : Prop :=
  ∃ verdict, Judged text verdict ∧ ∀ table offset finished,
    (Lexer.readAll ⟨table, text, offset, finished⟩).2 = verdict.map (LexError.behind offset)

section Reading

variable {start rest : List Char}

theorem ReadAsJudged.of_rest (hjoin : NoRunAcross start rest)
    (hstart : ∀ error, ¬Offence start error)
    (hread : ∀ table offset finished, (Lexer.readAll ⟨table, start ++ rest, offset, finished⟩).2 =
      (Lexer.readAll ⟨table, rest, offset + Text.byteLength start, finished⟩).2)
    (h : ReadAsJudged rest) : ReadAsJudged (start ++ rest) := by
  obtain ⟨verdict, hjudged, hrest⟩ := h
  refine ⟨_, hjudged.of_rest hjoin hstart, fun table offset finished => ?_⟩
  rw [hread, hrest, Option.map_map]
  congr 1
  funext error
  exact (LexError.behind_behind _ _ error).symm

theorem readAsJudged_blank {first : Char} (hblank : Lexer.isBlank first = true)
    (h : ReadAsJudged rest) : ReadAsJudged (first :: rest) := by
  have hmem := mem_blanks_iff.mpr hblank
  have hdigit : first.isDigit = false := by
    simp only [List.mem_cons, List.not_mem_nil, or_false] at hmem
    rcases hmem with rfl | rfl | rfl | rfl <;> rfl
  have hnotDigit : ∀ character ∈ [first], character.isDigit = false := by simpa using hdigit
  have hplace : ∀ character ∈ [first], IsNotation character :=
    List.forall_mem_singleton.mpr (.inr (.inr (.inl hmem)))
  have hjoin : NoRunAcross [first] rest := .of_notDigit hnotDigit
  refine h.of_rest hjoin
    (fun _ => not_offence_of_notation hplace hnotDigit) fun table offset finished => ?_
  rw [List.singleton_append, Lexer.readAll_blank hblank, Text.byteLength,
    utf8Size_of_blank first hmem]
  rfl

theorem readAsJudged_digits {run : List Char} (hne : run ≠ [])
    (hdigits : ∀ character ∈ run, character.isDigit = true)
    (hends : ∀ next ∈ rest.head?, next.isDigit = false) (h : ReadAsJudged rest) :
    ReadAsJudged (run ++ rest) := by
  have hjoin : NoRunAcross run rest := .of_ends hends
  have hascii := fun character hmem => utf8Size_of_isDigit (hdigits character hmem)
  by_cases hfits : Nat.ofDigitChars 10 run 0 < UInt64.size
  · have hclean : ∀ error, ¬Offence run error := fun error herror => by
      have hlarge := (herror.of_digits hdigits).1
      omega
    refine h.of_rest hjoin hclean fun table offset finished => ?_
    have hread : Lexeme.read? table (run ++ rest) =
        some (.number (Nat.ofDigitChars 10 run 0), run.length) :=
      Lexeme.read?_digits hne hdigits hends
    have hvalue : ∀ value, Lexeme.number (Nat.ofDigitChars 10 run 0) = .number value →
        value < UInt64.size := by
      rintro value ⟨⟩
      exact hfits
    rw [Lexer.readAll_span hread hvalue hascii]
  · have hlarge := Nat.not_lt.mp hfits
    have hoffence := Offence.number [] [] hne hdigits nofun nofun hlarge
    rw [List.nil_append, List.append_nil] at hoffence
    have hposition : 0 < Text.byteLength run := by
      rw [byteLength_of_utf8Size hascii]
      exact List.length_pos_iff.mpr hne
    have hfirst : FirstOffence (run ++ rest) _ :=
      .of_start hjoin hoffence (fun _ hother => (hother.of_digits hdigits).2) hposition
    refine ⟨some _, hfirst, fun table offset finished => ?_⟩
    rw [Lexer.readAll_tooLarge hne hdigits hends hlarge]
    rfl

theorem readAsJudged_letters {run : List Char}
    (hletters : ∀ character ∈ run, character.isAlpha = true)
    (hends : ∀ next ∈ rest.head?, next.isAlpha = false) (h : ReadAsJudged rest) :
    ReadAsJudged (run ++ rest) := by
  have hnotDigit := fun character hmem => not_isDigit_of_isAlpha (hletters character hmem)
  have hplace : ∀ character ∈ run, IsNotation character :=
    fun character hmem => .inl (hletters character hmem)
  refine h.of_rest (.of_notDigit hnotDigit)
    (fun _ => not_offence_of_notation hplace hnotDigit) fun table offset finished => ?_
  obtain ⟨pieces, hcut⟩ := exists_cut table run
  rw [Lexer.readAll_cut hcut hletters hends]

theorem readAsJudged_symbol {word : List Char} {lexeme : Lexeme} (hmem : (word, lexeme) ∈ symbols)
    (hlongest : ∀ longer ∈ symbols, longer.1 <+: word ++ rest → longer.1.length ≤ word.length)
    (h : ReadAsJudged rest) : ReadAsJudged (word ++ rest) := by
  have hkind := isNotation_of_mem_symbols _ hmem
  have hnotDigit := fun character hword => (hkind character hword).2
  have hplace := fun character hword => (hkind character hword).1
  refine h.of_rest (.of_notDigit hnotDigit)
    (fun _ => not_offence_of_notation hplace hnotDigit) fun table offset finished => ?_
  have hvalue : ∀ value, lexeme = .number value → value < UInt64.size := by
    rintro value rfl
    simp [symbols] at hmem
  rw [Lexer.readAll_span (Lexeme.read?_of_symbol table hmem hlongest) hvalue
    (utf8Size_of_symbol _ hmem)]

theorem readAsJudged_strange {first : Char} (hstrange : ¬IsNotation first) :
    ReadAsJudged (first :: rest) := by
  have hoffence := Offence.character [] [] hstrange
  have hnotDigit : ∀ character ∈ [first], character.isDigit = false := by
    simp only [IsNotation, not_or, Bool.not_eq_true] at hstrange
    simpa using hstrange.2.1
  have hfirst : FirstOffence ([first] ++ rest) _ :=
    .of_start (.of_notDigit hnotDigit) hoffence (fun _ hother => hother.of_singleton hnotDigit)
      first.utf8Size_pos
  refine ⟨some _, hfirst, fun table offset finished => ?_⟩
  rw [Lexer.readAll_strange rest hstrange]
  rfl

end Reading

theorem readAsJudged (text : List Char) : ReadAsJudged text := by
  -- each start of the text that is read leaves a shorter text, of which this holds
  induction hsize : text.length using Nat.strongRecOn generalizing text with
  | _ size ih =>
    cases text with
    | nil =>
      refine ⟨none, fun error => not_offence_of_notation (by simp) (by simp), ?_⟩
      intro table offset finished
      rw [Lexer.readAll_nil]
      rfl
    | cons first text =>
      have hshorter {start rest : List Char} (htext : first :: text = start ++ rest)
          (hne : start ≠ []) : ReadAsJudged rest := by
        have hpos := List.length_pos_iff.mpr hne
        have hlength := congrArg List.length htext
        rw [List.length_append] at hlength
        exact ih rest.length (by omega) rest rfl
      cases hblank : Lexer.isBlank first with
      | true => exact readAsJudged_blank hblank (hshorter List.singleton_append.symm (by simp))
      | false =>
        cases hdigit : first.isDigit with
        | true =>
          obtain ⟨run, rest, htext, hne, hdigits, hends⟩ := exists_run text hdigit
          rw [htext]
          exact readAsJudged_digits hne hdigits hends (hshorter htext hne)
        | false =>
          cases hletter : first.isAlpha with
          | true =>
            obtain ⟨run, rest, htext, hne, hletters, hends⟩ := exists_run text hletter
            rw [htext]
            exact readAsJudged_letters hletters hends (hshorter htext hne)
          | false =>
            cases hsymbol : Lexeme.symbol? (first :: text) with
            | some found =>
              obtain ⟨word, rest, htext, -, hmem, hlongest⟩ := Lexeme.symbol?_eq_some hsymbol
              have hne : word ≠ [] := by
                rintro rfl
                simp [symbols] at hmem
              rw [htext] at hlongest ⊢
              exact readAsJudged_symbol hmem hlongest (hshorter htext hne)
            | none =>
              refine readAsJudged_strange ?_
              have hnone : (Lexeme.symbol? (first :: text)).isSome = false := by rw [hsymbol]; rfl
              rw [IsNotation, ← Lexeme.isSome_symbol?_iff, hnone, mem_blanks_iff, hblank, hdigit,
                hletter]
              simp

theorem tokenize_eq_error_iff_readAll {table : KeywordTable} {line : String} {error : LexError} :
    tokenize table line = .error error ↔
      (Lexer.readAll ⟨table, line.toList, 0, false⟩).2 = some error := by
  unfold tokenize Lexer.start
  rcases Lexer.readAll ⟨table, line.toList, 0, false⟩ with ⟨tokens, _ | other⟩ <;> simp

/-- Reading a line fails just if a character has no place in dice notation or a run of digits is too
large. What comes first of these is what it fails with, so that keywords make no difference. -/
theorem tokenize_eq_error_iff (line : String) :
    (∀ table, (∃ error, tokenize table line = .error error) ↔
      ∃ error, Offence line.toList error) ∧
    (∀ table error, tokenize table line = .error error ↔ FirstOffence line.toList error) ∧
    ∀ table table' error,
      tokenize table line = .error error ↔ tokenize table' line = .error error := by
  obtain ⟨verdict, hjudged, hread⟩ := readAsJudged line.toList
  have hverdict : ∀ table error, tokenize table line = .error error ↔ verdict = some error := by
    intro table error
    rw [tokenize_eq_error_iff_readAll, hread]
    cases verdict <;> simp
  refine ⟨fun table => ?_, fun table error => ?_, fun table table' error => ?_⟩
  · rw [← hjudged.exists_eq_some_iff]
    exact exists_congr (hverdict table)
  · rw [hverdict, hjudged.eq_some_iff]
  · rw [hverdict, hverdict]

end DiceNotation
