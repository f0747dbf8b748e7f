import DiceNotation.Keyword

/-!
# Keyword tables

A keyword table says which words stand for which keyword. Letter case never matters. A word of
several keywords run together, such as `rokh`, is cut from the left by `longestPrefix?`.
-/
namespace DiceNotation

/-- Spellings in lower case; the first entry of a spelling counts. -/
structure KeywordTable where
  entries : List (List Char × Keyword)
  deriving Repr

namespace KeywordTable

/-- ASCII letters in lower case, all other characters as they are. -/
def lowered (word : List Char) : List Char := word.map Char.toLower

def empty : KeywordTable := ⟨[]⟩

def erase (table : KeywordTable) (spelling : List Char) : KeywordTable :=
  ⟨table.entries.filter fun entry => entry.1 != lowered spelling⟩

def insert (table : KeywordTable) (spelling : List Char) (keyword : Keyword) : KeywordTable :=
  ⟨(lowered spelling, keyword) :: (table.erase spelling).entries⟩

def keyword? (table : KeywordTable) (word : List Char) : Option Keyword :=
  table.entries.lookup (lowered word)

def longestSpelling (table : KeywordTable) : Nat :=
  table.entries.foldr (fun entry longest => max entry.1.length longest) 0

/-- The longest spelling among the first `n` characters of a word, and its length; an empty
spelling is never taken. -/
def prefixUpTo? (table : KeywordTable) (word : List Char) : Nat → Option (Keyword × Nat)
  | 0 => none
  | n + 1 =>
    match table.keyword? (word.take (n + 1)) with
    | some keyword => some (keyword, n + 1)
    | none => table.prefixUpTo? word n

/-- The longest spelling that a word starts with, and its length in characters. -/
def longestPrefix? (table : KeywordTable) (word : List Char) : Option (Keyword × Nat) :=
  table.prefixUpTo? word (min word.length table.longestSpelling)

/-- Two tables are equal when they agree on every spelling of either. -/
instance : BEq KeywordTable where
  beq left right := (left.entries ++ right.entries).all fun entry =>
    left.entries.lookup entry.1 == right.entries.lookup entry.1

def standardSpellings : List (String × Keyword) :=
  [("d", .die), ("keep", .keep), ("k", .keep), ("drop", .drop), ("highest", .highest),
    ("high", .highest), ("lowest", .lowest), ("low", .lowest), ("kh", .keepHighest),
    ("kl", .keepLowest), ("dh", .dropHighest), ("dl", .dropLowest), ("reroll", .reroll),
    ("r", .reroll), ("rerollonce", .rerollOnce), ("ro", .rerollOnce), ("explode", .explode),
    ("adv", .advantage), ("advantage", .advantage), ("dis", .disadvantage),
    ("disadvantage", .disadvantage)]

def standard : KeywordTable :=
  standardSpellings.foldl (fun table entry => table.insert entry.1.toList entry.2) empty

theorem lowered_length (word : List Char) : (lowered word).length = word.length := by
  simp [lowered]

theorem prefixUpTo?_pos {table : KeywordTable} {word : List Char} {n : Nat} {keyword : Keyword}
    {length : Nat} (h : table.prefixUpTo? word n = some (keyword, length)) : 0 < length := by
  induction n with
  | zero => simp [prefixUpTo?] at h
  | succ n ih =>
    rw [prefixUpTo?] at h
    split at h
    · simp at h; omega
    · exact ih h

theorem lookup_filter_ne (entries : List (List Char × Keyword)) (spelling word : List Char) :
    (entries.filter fun entry => entry.1 != spelling).lookup word =
      if word = spelling then none else entries.lookup word := by
  induction entries with
  | nil => simp
  | cons entry rest ih =>
    obtain ⟨first, keyword⟩ := entry
    by_cases hfirst : first = spelling
    · subst hfirst
      rw [List.filter_cons_of_neg (by simp), ih]
      by_cases hword : word = first
      · simp [hword]
      · simp [hword, List.lookup_cons, beq_eq_false_iff_ne.mpr hword]
    · rw [List.filter_cons_of_pos (by simpa using hfirst), List.lookup_cons, List.lookup_cons, ih]
      by_cases hword : word = first
      · simp [hword, hfirst]
      · rw [beq_eq_false_iff_ne.mpr hword]

theorem keyword?_empty (word : List Char) : empty.keyword? word = none := rfl

theorem keyword?_erase (table : KeywordTable) (spelling word : List Char) :
    (table.erase spelling).keyword? word =
      if lowered word = lowered spelling then none else table.keyword? word :=
  lookup_filter_ne _ _ _

theorem keyword?_insert (table : KeywordTable) (spelling : List Char) (keyword : Keyword)
    (word : List Char) :
    (table.insert spelling keyword).keyword? word =
      if lowered word = lowered spelling then some keyword else table.keyword? word := by
  rw [keyword?, insert, List.lookup_cons]
  by_cases h : lowered word = lowered spelling
  · rw [beq_iff_eq.mpr h, if_pos h]
  · rw [beq_eq_false_iff_ne.mpr h, if_neg h]
    exact (keyword?_erase table spelling word).trans (if_neg h)

theorem length_le_longestSpelling {table : KeywordTable} {entry : List Char × Keyword}
    (h : entry ∈ table.entries) : entry.1.length ≤ table.longestSpelling := by
  unfold longestSpelling
  generalize table.entries = entries at h
  induction entries with
  | nil => simp at h
  | cons first rest ih =>
    rcases List.mem_cons.mp h with rfl | h
    · exact Nat.le_max_left _ _
    · exact Nat.le_trans (ih h) (Nat.le_max_right _ _)

theorem keyword?_eq_none {table : KeywordTable} {word : List Char}
    (h : table.longestSpelling < word.length) : table.keyword? word = none := by
  refine List.lookup_eq_none_iff.mpr fun entry hentry => ?_
  have hlength := length_le_longestSpelling hentry
  rw [bne_iff_ne]
  intro hword
  rw [← hword, lowered_length] at hlength
  omega

/-- No spelling is lost by looking no further than the longest one. -/
theorem longestPrefix?_eq (table : KeywordTable) (word : List Char) :
    table.longestPrefix? word = table.prefixUpTo? word word.length := by
  suffices ∀ n, n ≤ word.length →
      table.prefixUpTo? word (min n table.longestSpelling) = table.prefixUpTo? word n from
    this _ (Nat.le_refl _)
  intro n hn
  induction n with
  | zero => simp
  | succ n ih =>
    by_cases h : n + 1 ≤ table.longestSpelling
    · rw [Nat.min_eq_left h]
    · have hnone : table.keyword? (word.take (n + 1)) = none :=
        keyword?_eq_none (by rw [List.length_take]; omega)
      rw [prefixUpTo?, hnone, ← ih (by omega), Nat.min_eq_right (by omega),
        Nat.min_eq_right (by omega)]

/-- Cutting a keyword off a word makes the word shorter. -/
theorem longestPrefix?_pos {table : KeywordTable} {word : List Char} {keyword : Keyword}
    {length : Nat} (h : table.longestPrefix? word = some (keyword, length)) : 0 < length :=
  prefixUpTo?_pos h

end KeywordTable

end DiceNotation
