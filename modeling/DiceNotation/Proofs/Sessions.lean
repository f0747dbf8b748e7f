import Mathlib.Data.List.ReduceOption
import Mathlib.Data.List.TakeWhile
import DiceNotation.Faces.Script
import DiceNotation.Proofs.RollSteps
import DiceNotation.Shell

/-!
# Lines that do not disturb a session

A line that fails before a die is thrown leaves the source of faces alone. Put in anywhere in a
session, such lines change neither what the other lines come to nor what is left of the source. The
same goes for the shell, where blank lines and white space around lines are of no account either,
and nothing is read behind the line that leaves.
-/
namespace DiceNotation

namespace Text

theorem trimmed_append_left {blanks : List Char} (h : ∀ c ∈ blanks, isBlank c = true)
    (text : List Char) : trimmed (blanks ++ text) = trimmed text := by
  rw [trimmed, List.dropWhile_append_of_pos h, trimmed]

theorem trimmed_of_blank {text : List Char} (h : ∀ c ∈ text, isBlank c = true) :
    trimmed text = [] := by
  rw [trimmed, List.dropWhile_eq_nil_iff.mpr h]
  rfl

theorem trimmed_append_right {blanks : List Char} (h : ∀ c ∈ blanks, isBlank c = true)
    (text : List Char) : trimmed (text ++ blanks) = trimmed text := by
  have hreverse : ∀ c ∈ blanks.reverse, isBlank c = true :=
    fun c hc => h c (List.mem_reverse.mp hc)
  cases htext : (text.dropWhile isBlank).isEmpty with
  | true =>
    have hblank := List.dropWhile_eq_nil_iff.mp (List.isEmpty_iff.mp htext)
    rw [trimmed_of_blank hblank, trimmed_of_blank]
    intro c hc
    exact (List.mem_append.mp hc).elim (hblank c) (h c)
  | false =>
    rw [trimmed, List.dropWhile_append, htext, if_neg Bool.false_ne_true, List.reverse_append,
      List.dropWhile_append_of_pos hreverse, trimmed]

end Text

/-- A line for which no die is thrown: it cannot be read into tokens or these are no expression, or
the expression has more nodes than are allowed. -/
inductive Fruitless (line : String) : Prop
  | unparsed (failure : Failure) (h : Expression.parse line = .error failure)
  | tooLarge (expression : Expression) (h : Expression.parse line = .ok expression)
      (hlarge : 1000 < expression.nodeCount)

theorem Fruitless.rollLine_eq {line : String} (h : Fruitless line) :
    ∃ failure, ∀ {σ : Type} [FaceSource σ] (source : σ),
      rollLine line source = (.error failure, source) := by
  cases h with
  | unparsed failure h => exact ⟨failure, fun source => by rw [rollLine, h]⟩
  | tooLarge expression h hlarge =>
    refine ⟨.rolling (.tooManyNodes expression.nodeCount 1000), fun source => ?_⟩
    have hroll : expression.roll {} source =
        (.error (.tooManyNodes expression.nodeCount 1000), source) :=
      Expression.roll_of_lt_nodeCount hlarge source
    simp only [rollLine, h, hroll]

/-! ### Lines rolled one after another -/

/-- A line of a session, which may have been put in. -/
structure Entry where
  line : String
  isPutIn : Bool

def resultsOfOthers {α β : Type} (isPutIn : α → Bool) (entries : List α) (results : List β) :
    List β :=
  ((entries.zip results).filter fun entry => !isPutIn entry.1).map Prod.snd

section Entries

variable {α β : Type} {isPutIn : α → Bool} {entry : α}

theorem resultsOfOthers_cons_of_putIn (h : isPutIn entry = true) (entries : List α) (result : β)
    (results : List β) :
    resultsOfOthers isPutIn (entry :: entries) (result :: results) =
      resultsOfOthers isPutIn entries results := by
  simp [resultsOfOthers, h]

theorem resultsOfOthers_cons (h : isPutIn entry = false) (entries : List α) (result : β)
    (results : List β) :
    resultsOfOthers isPutIn (entry :: entries) (result :: results) =
      result :: resultsOfOthers isPutIn entries results := by
  simp [resultsOfOthers, h]

end Entries

theorem rollLines_cons {σ : Type} [FaceSource σ] (line : String) (rest : List String) (source : σ) :
    rollLines (line :: rest) source =
      ((rollLine line source).1 :: (rollLines rest (rollLine line source).2).1,
        (rollLines rest (rollLine line source).2).2) := rfl

theorem rollLines_others {σ : Type} [FaceSource σ] {entries : List Entry}
    (h : ∀ entry ∈ entries, entry.isPutIn = true → Fruitless entry.line) (source : σ) :
    rollLines ((entries.filter (!·.isPutIn)).map Entry.line) source =
      (resultsOfOthers Entry.isPutIn entries (rollLines (entries.map Entry.line) source).1,
        (rollLines (entries.map Entry.line) source).2) := by
  induction entries generalizing source with
  | nil => rfl
  | cons entry entries ih =>
    obtain ⟨hentry, hentries⟩ := List.forall_mem_cons.mp h
    cases hput : entry.isPutIn with
    | true =>
      obtain ⟨failure, hroll⟩ := (hentry hput).rollLine_eq
      rw [List.filter_cons_of_neg (by simp [hput]), ih hentries, List.map_cons, rollLines_cons,
        hroll, resultsOfOthers_cons_of_putIn hput]
    | false =>
      rw [List.filter_cons_of_pos (by simp [hput]), List.map_cons, rollLines_cons, ih hentries,
        List.map_cons, rollLines_cons, resultsOfOthers_cons hput]

/-! ### The shell -/

namespace Shell

def IsExit (line : List Char) : Prop := (Text.trimmed line).map Char.toLower = "exit".toList

section Lines

variable {line : List Char}

theorem ofLine_of_blank (h : Text.trimmed line = []) : Request.ofLine line = .nothing := by
  simp [Request.ofLine, h]

theorem ofLine_of_isExit (h : IsExit line) : Request.ofLine line = .leave := by
  have hne : (Text.trimmed line).isEmpty = false := by
    cases hinput : Text.trimmed line with
    | nil => rw [IsExit, hinput] at h; simp at h
    | cons _ _ => rfl
  rw [Request.ofLine]
  simp only [hne, Bool.false_eq_true, if_false]
  exact if_pos h

theorem ofLine_of_not_isExit (hne : Text.trimmed line ≠ []) (h : ¬ IsExit line) :
    Request.ofLine line = .roll (String.ofList (Text.trimmed line)) := by
  rw [Request.ofLine]
  simp only [List.isEmpty_iff, hne, if_false]
  exact if_neg h

end Lines

section Answers

variable {σ : Type} [FaceSource σ]

/-- What the shell answers to each line that it reads before it is left, and the source then. -/
def answers (source : σ) : List (List Char) → List (Option String) × σ
  | [] => ([], source)
  | line :: rest =>
    match Request.ofLine line with
    | .nothing => (none :: (answers source rest).1, (answers source rest).2)
    | .leave => ([], source)
    | .roll input =>
      (some (answer input (rollLine input source).1) ::
          (answers (rollLine input source).2 rest).1,
        (answers (rollLine input source).2 rest).2)

theorem converse_eq (source : σ) (lines : List (List Char)) :
    converse source lines = (answers source lines).1.reduceOption := by
  induction lines generalizing source with
  | nil => rfl
  | cons line rest ih =>
    rw [converse, answers]
    cases Request.ofLine line with
    | nothing => rw [List.reduceOption_cons_of_none, ih]
    | leave => rfl
    | roll input =>
      rw [List.reduceOption_cons_of_some, ← ih]

theorem answers_append_exit {exit : List Char} (hexit : IsExit exit) (source : σ)
    (before rest : List (List Char)) :
    answers source (before ++ exit :: rest) = answers source before := by
  induction before generalizing source with
  | nil => simp only [List.nil_append, answers, ofLine_of_isExit hexit]
  | cons line before ih => simp only [List.cons_append, answers, ih]

end Answers

/-- A line typed into the shell with white space around it, which may have been put in. -/
structure Entry where
  before : List Char
  line : List Char
  after : List Char
  isPutIn : Bool

namespace Entry

def typed (entry : Entry) : List Char := entry.before ++ entry.line ++ entry.after

/-- There is nothing but white space around the line, and if it is put in, it is blank or fails as
the shell rolls it, which is without the white space. -/
structure Harmless (entry : Entry) : Prop where
  before : ∀ c ∈ entry.before, Text.isBlank c = true
  after : ∀ c ∈ entry.after, Text.isBlank c = true
  putIn : entry.isPutIn = true → (∀ c ∈ entry.line, Text.isBlank c = true) ∨
    ¬ IsExit entry.line ∧ Fruitless (String.ofList (Text.trimmed entry.line))

theorem Harmless.ofLine_typed {entry : Entry} (h : entry.Harmless) :
    Request.ofLine entry.typed = Request.ofLine entry.line := by
  rw [Request.ofLine, typed, Text.trimmed_append_right h.after, Text.trimmed_append_left h.before,
    Request.ofLine]

theorem Harmless.request {entry : Entry} (h : entry.Harmless) (hput : entry.isPutIn = true) :
    Request.ofLine entry.line = .nothing ∨
      ∃ input, Request.ofLine entry.line = .roll input ∧ Fruitless input := by
  by_cases hblank : Text.trimmed entry.line = []
  · exact .inl (ofLine_of_blank hblank)
  · rcases h.putIn hput with hline | ⟨hexit, hfruitless⟩
    · exact absurd (Text.trimmed_of_blank hline) hblank
    · exact .inr ⟨_, ofLine_of_not_isExit hblank hexit, hfruitless⟩

end Entry

theorem answers_others {σ : Type} [FaceSource σ] {entries : List Entry}
    (h : ∀ entry ∈ entries, entry.Harmless) (source : σ) :
    answers source ((entries.filter (!·.isPutIn)).map Entry.line) =
      (resultsOfOthers Entry.isPutIn entries (answers source (entries.map Entry.typed)).1,
        (answers source (entries.map Entry.typed)).2) := by
  induction entries generalizing source with
  | nil => rfl
  | cons entry entries ih =>
    obtain ⟨hentry, hentries⟩ := List.forall_mem_cons.mp h
    rw [List.map_cons, answers, hentry.ofLine_typed]
    cases hput : entry.isPutIn with
    | true =>
      rw [List.filter_cons_of_neg (by simp [hput]), ih hentries]
      rcases hentry.request hput with hline | ⟨input, hline, hfruitless⟩
      · rw [hline]
        simp only [resultsOfOthers_cons_of_putIn hput]
      · obtain ⟨failure, hroll⟩ := hfruitless.rollLine_eq
        rw [hline]
        simp only [hroll, resultsOfOthers_cons_of_putIn hput]
    | false =>
      rw [List.filter_cons_of_pos (by simp [hput]), List.map_cons, answers]
      cases Request.ofLine entry.line with
      | nothing => simp only [ih hentries, resultsOfOthers_cons hput]
      | leave => rfl
      | roll input => simp only [ih hentries, resultsOfOthers_cons hput]

theorem run_of_seed {entropy : UInt64} {arguments : List String} {seed : UInt64}
    (h : readArguments arguments = .ok (some seed)) (input : String) :
    run entropy arguments input =
      ⟨unlines (greeting ::
        (answers (SeededFaces.ofSeed seed) (input.toList.splitOn '\n')).1.reduceOption), "", 0⟩ := by
  rw [run, h, ← converse_eq]
  rfl

end Shell

/-- Lines that fail before a die is thrown, put in anywhere, change neither the results of the other
lines nor the source that is left; nor do they in the shell, where blank lines may be put in as well
and white space around any line, and what follows the line that leaves is not read. What a run with
a seed prints are the answers of the shell. -/
theorem session_undisturbed {σ : Type} [FaceSource σ] (source : σ) {entries : List Entry}
    (hentries : ∀ entry ∈ entries, entry.isPutIn = true → Fruitless entry.line)
    {typed : List Shell.Entry} (htyped : ∀ entry ∈ typed, entry.Harmless)
    {exit : List Char} (hexit : Shell.IsExit exit) (before rest : List (List Char))
    {arguments : List String} {seed : UInt64}
    (hseed : Shell.readArguments arguments = .ok (some seed)) (entropy : UInt64) (input : String) :
    rollLines ((entries.filter (!·.isPutIn)).map Entry.line) source =
        (resultsOfOthers Entry.isPutIn entries (rollLines (entries.map Entry.line) source).1,
          (rollLines (entries.map Entry.line) source).2) ∧
      Shell.answers source ((typed.filter (!·.isPutIn)).map Shell.Entry.line) =
        (resultsOfOthers Shell.Entry.isPutIn typed
            (Shell.answers source (typed.map Shell.Entry.typed)).1,
          (Shell.answers source (typed.map Shell.Entry.typed)).2) ∧
      Shell.answers source (before ++ exit :: rest) = Shell.answers source before ∧
      Shell.run entropy arguments input =
        ⟨Shell.unlines (Shell.greeting :: (Shell.answers (SeededFaces.ofSeed seed)
          (input.toList.splitOn '\n')).1.reduceOption), "", 0⟩ :=
  ⟨rollLines_others hentries source, Shell.answers_others htyped source,
    Shell.answers_append_exit hexit source before rest, Shell.run_of_seed hseed input⟩

/-- A line that breaks off and one with a strange character, put in between two dice. -/
theorem session_undisturbed_of_broken_off :
    let source := Script.ofList [3, 5]
    let entries : List Entry := [⟨"1d6", false⟩, ⟨"2d6 +", true⟩, ⟨"2d?", true⟩, ⟨"1d6", false⟩]
    let typed : List Shell.Entry := [⟨[' '], ['1', 'd', '6'], ['\t'], false⟩,
      ⟨[' '], ['2', 'd', '6', ' ', '+'], [], true⟩, ⟨[], ['\u00a0'], [], true⟩,
      ⟨[], ['1', 'd', '6'], [], false⟩]
    (∀ entry ∈ entries, entry.isPutIn = true → Fruitless entry.line) ∧
      (∀ entry ∈ typed, entry.Harmless) ∧ Shell.IsExit [' ', 'E', 'x', 'i', 't'] ∧
      Shell.readArguments ["--seed", "7"] = .ok (some 7) ∧
      rollLines ["1d6", "1d6"] source =
        (resultsOfOthers Entry.isPutIn entries (rollLines (entries.map Entry.line) source).1,
          (rollLines (entries.map Entry.line) source).2) ∧
      Shell.answers source [['1', 'd', '6'], ['1', 'd', '6']] =
        (resultsOfOthers Shell.Entry.isPutIn typed
            (Shell.answers source (typed.map Shell.Entry.typed)).1,
          (Shell.answers source (typed.map Shell.Entry.typed)).2) ∧
      Shell.answers source [['1', 'd', '6'], [' ', 'E', 'x', 'i', 't'], ['1', 'd', '6']] =
        Shell.answers source [['1', 'd', '6']] := by
  intro source entries typed
  have hbroken : Fruitless "2d6 +" :=
    .unparsed (.parsing ⟨5, .factor, .endOfInput⟩) (by decide +kernel)
  have hstrange : Fruitless "2d?" :=
    .unparsed (.lexing (.unexpectedCharacter 2 '?')) (by decide +kernel)
  have hentries : ∀ entry ∈ entries, entry.isPutIn = true → Fruitless entry.line := by
    simp [entries, hbroken, hstrange]
  have hnone : ∀ c ∈ ([] : List Char), Text.isBlank c = true := List.forall_mem_nil _
  have hblank {c : Char} (hc : Text.isBlank c = true) : ∀ d ∈ [c], Text.isBlank d = true :=
    List.forall_mem_singleton.mpr hc
  have hspace : ∀ c ∈ [' '], Text.isBlank c = true := hblank (by decide)
  have htab : ∀ c ∈ ['\t'], Text.isBlank c = true := hblank (by decide)
  have hnoBreak : ∀ c ∈ ['\u00a0'], Text.isBlank c = true := hblank (by decide)
  have hstay : ¬ Shell.IsExit ['2', 'd', '6', ' ', '+'] := by unfold Shell.IsExit; decide
  have htyped : ∀ entry ∈ typed, entry.Harmless := by
    simp only [typed, List.forall_mem_cons]
    exact ⟨⟨hspace, htab, nofun⟩, ⟨hspace, hnone, fun _ => .inr ⟨hstay, hbroken⟩⟩,
      ⟨hnone, hnone, fun _ => .inl hnoBreak⟩, ⟨hnone, hnone, nofun⟩, nofun⟩
  have hexit : Shell.IsExit [' ', 'E', 'x', 'i', 't'] := by unfold Shell.IsExit; decide
  have hseed : Shell.readArguments ["--seed", "7"] = .ok (some 7) := by decide +kernel
  obtain ⟨hrolled, hanswered, hleft, -⟩ := session_undisturbed source hentries htyped hexit
    [['1', 'd', '6']] [['1', 'd', '6']] hseed 0 ""
  exact ⟨hentries, htyped, hexit, hseed, hrolled, hanswered, hleft⟩

end DiceNotation
