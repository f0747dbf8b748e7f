import Mathlib.Data.List.Induction
import DiceNotation.Proofs.Reading
import DiceNotation.Text.Column

/-!
# Edited keyword tables

A table that was edited again and again answers as the last edit that speaks of the word. Where a
word is cut is told by the spellings that it starts with, measured in bytes.
-/
namespace DiceNotation.KeywordTable

inductive Edit
  | add (spelling : List Char) (keyword : Keyword)
  | remove (spelling : List Char)

namespace Edit

def spelling : Edit → List Char
  | add spelling _ => spelling
  | remove spelling => spelling

def keyword? : Edit → Option Keyword
  | add _ keyword => some keyword
  | remove _ => none

def apply (table : KeywordTable) : Edit → KeywordTable
  | add spelling keyword => table.insert spelling keyword
  | remove spelling => table.erase spelling

def Concerns (word : List Char) (edit : Edit) : Prop := lowered edit.spelling = lowered word

instance (word : List Char) : DecidablePred (Concerns word) :=
  fun edit => inferInstanceAs (Decidable (lowered edit.spelling = lowered word))

theorem keyword?_apply (table : KeywordTable) (edit : Edit) (word : List Char) :
    (edit.apply table).keyword? word =
      if edit.Concerns word then edit.keyword? else table.keyword? word := by
  cases edit with
  | add spelling keyword =>
    simp only [apply, keyword?_insert, Concerns, Edit.spelling, Edit.keyword?, eq_comm]
  | remove spelling =>
    simp only [apply, keyword?_erase, Concerns, Edit.spelling, Edit.keyword?, eq_comm]

end Edit

def lastEdit? (edits : List Edit) (word : List Char) : Option Edit :=
  (edits.filter (Edit.Concerns word)).getLast?

theorem lastEdit?_concat (edits : List Edit) (edit : Edit) (word : List Char) :
    lastEdit? (edits ++ [edit]) word =
      if edit.Concerns word then some edit else lastEdit? edits word := by
  by_cases h : edit.Concerns word <;> simp [lastEdit?, h]

/-- A word that no edit speaks of keeps its meaning; any other has that of the last such edit. -/
theorem keyword?_edits (table : KeywordTable) (edits : List Edit) (word : List Char) :
    (edits.foldl Edit.apply table).keyword? word =
      (lastEdit? edits word).elim (table.keyword? word) Edit.keyword? := by
  induction edits using List.reverseRecOn with
  | nil => rfl
  | append_singleton former edit ih =>
    rw [List.foldl_append, List.foldl_cons, List.foldl_nil, Edit.keyword?_apply,
      lastEdit?_concat, ih]
    split <;> rfl

inductive Base
  | empty
  | standard

namespace Base

def table : Base → KeywordTable
  | empty => KeywordTable.empty
  | standard => KeywordTable.standard

/-- The entries of the table as the first edits. -/
def edits : Base → List Edit
  | empty => []
  | standard => standardSpellings.map fun entry => .add entry.1.toList entry.2

theorem table_eq (base : Base) : base.table = base.edits.foldl Edit.apply KeywordTable.empty := by
  cases base with
  | empty => rfl
  | standard => rw [table, edits, List.foldl_map]; rfl

end Base

def edited (base : Base) (edits : List Edit) : KeywordTable := edits.foldl Edit.apply base.table

theorem edited_eq (base : Base) (edits : List Edit) :
    edited base edits = (base.edits ++ edits).foldl Edit.apply KeywordTable.empty := by
  rw [edited, base.table_eq, List.foldl_append]

/-- The first `bytes` bytes of a word are whole characters that spell a keyword. -/
def Spells (table : KeywordTable) (word : List Char) (keyword : Keyword) (bytes : Nat) : Prop :=
  ∃ start, start <+: word ∧ Text.byteLength start = bytes ∧ table.keyword? start = some keyword

/-- The longest spelling that a word starts with, and its length in bytes. -/
def longestBytes? (table : KeywordTable) (word : List Char) : Option (Keyword × Nat) :=
  (table.longestPrefix? word).map fun found => (found.1, Text.byteLength (word.take found.2))

theorem byteLength_lt_iff {word start longer : List Char} (hstart : start <+: word)
    (hlonger : longer <+: word) :
    Text.byteLength start < Text.byteLength longer ↔ start.length < longer.length := by
  suffices ∀ {start longer : List Char}, start <+: word → longer <+: word →
      start.length < longer.length → Text.byteLength start < Text.byteLength longer by
    refine ⟨fun hbytes => ?_, this hstart hlonger⟩
    rcases Nat.lt_trichotomy start.length longer.length with hlt | heq | hgt
    · exact hlt
    · rw [List.prefix_iff_eq_take.mp hstart, heq, ← List.prefix_iff_eq_take.mp hlonger] at hbytes
      exact absurd hbytes (Nat.lt_irrefl _)
    · exact absurd (this hlonger hstart hgt) (Nat.lt_asymm hbytes)
  intro start longer hstart hlonger hlt
  obtain ⟨more, rfl⟩ := List.prefix_of_prefix_length_le hstart hlonger (Nat.le_of_lt hlt)
  have hmore : more ≠ [] := by
    rintro rfl
    simp at hlt
  rw [Text.byteLength_append]
  exact Nat.lt_add_of_pos_right (Text.byteLength_pos hmore)

theorem longestBytes?_eq_some_iff {table : KeywordTable} {word : List Char} {keyword : Keyword}
    {bytes : Nat} :
    table.longestBytes? word = some (keyword, bytes) ↔
      0 < bytes ∧ table.Spells word keyword bytes ∧
        ∀ other longer, table.Spells word other longer → longer ≤ bytes := by
  constructor
  · intro h
    obtain ⟨⟨found, length⟩, hfound, heq⟩ := Option.map_eq_some_iff.mp h
    obtain ⟨start, rest, rfl, rfl⟩ := exists_append_of_longestPrefix? hfound
    rw [List.take_left] at heq
    cases heq
    obtain ⟨hne, hkeyword, hlonger⟩ := longestPrefix?_append_eq_some_iff.mp hfound
    refine ⟨Text.byteLength_pos hne, ⟨start, List.prefix_append .., rfl, hkeyword⟩, ?_⟩
    rintro other _ ⟨longer, hprefix, rfl, hother⟩
    refine Nat.not_lt.mp fun hbytes => ?_
    have hlt := (byteLength_lt_iff (List.prefix_append ..) hprefix).mp hbytes
    rw [hlonger longer hprefix hlt] at hother
    cases hother
  · rintro ⟨hpos, ⟨start, ⟨rest, rfl⟩, rfl, hkeyword⟩, hgreatest⟩
    have hne : start ≠ [] := by
      rintro rfl
      exact Nat.lt_irrefl 0 hpos
    refine Option.map_eq_some_iff.mpr ⟨(keyword, start.length), ?_, by rw [List.take_left]⟩
    refine longestPrefix?_append_eq_some_iff.mpr ⟨hne, hkeyword, fun longer hprefix hlt => ?_⟩
    cases hother : table.keyword? longer with
    | none => rfl
    | some other =>
      have hbytes := (byteLength_lt_iff (List.prefix_append ..) hprefix).mpr hlt
      exact absurd (hgreatest other _ ⟨longer, hprefix, rfl, hother⟩) (Nat.not_le.mpr hbytes)

theorem longestBytes?_eq_none_iff {table : KeywordTable} {word : List Char} :
    table.longestBytes? word = none ↔
      ∀ keyword bytes, table.Spells word keyword bytes → bytes = 0 := by
  rw [longestBytes?, Option.map_eq_none_iff, longestPrefix?_eq_none_iff]
  constructor
  · rintro h keyword _ ⟨start, hprefix, rfl, hkeyword⟩
    by_cases hne : start = []
    · rw [hne, Text.byteLength]
    · rw [h start hprefix hne] at hkeyword
      cases hkeyword
  · intro h start hprefix hne
    cases hkeyword : table.keyword? start with
    | none => rfl
    | some keyword =>
      have hzero := h keyword _ ⟨start, hprefix, rfl, hkeyword⟩
      exact absurd hzero (Nat.ne_of_gt (Text.byteLength_pos hne))

/-- In a table that was edited a word stands for what the last edit of it says, the entries that the
table began with being the first edits. The longest prefix of a word is the greatest number of
bytes, but at least one, after which the word can be cut so that a keyword is spelled. -/
theorem keyword?_edited (base : Base) (edits : List Edit) (word : List Char) :
    (edited base edits).keyword? word =
        (lastEdit? (base.edits ++ edits) word).bind Edit.keyword? ∧
      (∀ keyword bytes, (edited base edits).longestBytes? word = some (keyword, bytes) ↔
        0 < bytes ∧ (edited base edits).Spells word keyword bytes ∧
          ∀ other longer, (edited base edits).Spells word other longer → longer ≤ bytes) ∧
      ((edited base edits).longestBytes? word = none ↔
        ∀ keyword bytes, (edited base edits).Spells word keyword bytes → bytes = 0) := by
  refine ⟨?_, fun _ _ => longestBytes?_eq_some_iff, longestBytes?_eq_none_iff⟩
  rw [edited_eq, keyword?_edits, keyword?_empty]
  cases lastEdit? (base.edits ++ edits) word <;> rfl

example :
    let table := edited .standard [.add ['É', 'X'] .drop, .remove ['K', 'h'], .add [] .die]
    table.longestBytes? ['É', 'x', 'k'] = some (.drop, 3) ∧
      table.longestBytes? ['k', 'H'] = some (.keep, 1) ∧ table.longestBytes? ['?'] = none := by
  decide +kernel

end DiceNotation.KeywordTable
