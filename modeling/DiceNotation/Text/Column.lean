/-!
# Columns

A place in a text is known by its byte; a column counts the characters before it.
-/
namespace DiceNotation.Text

/-- How many characters come before a byte, unless it is inside a character or past the end. -/
def column? : Nat → List Char → Option Nat
  | 0, _ => some 0
  | _ + 1, [] => none
  | byte + 1, first :: rest =>
    if first.utf8Size ≤ byte + 1 then
      (column? (byte + 1 - first.utf8Size) rest).map (· + 1)
    else
      none

def byteLength : List Char → Nat
  | [] => 0
  | first :: rest => first.utf8Size + byteLength rest

theorem byteLength_pos {text : List Char} (h : text ≠ []) : 0 < byteLength text := by
  obtain ⟨first, rest, rfl⟩ := List.exists_cons_of_ne_nil h
  exact Nat.add_pos_left first.utf8Size_pos _

theorem byteLength_append (before after : List Char) :
    byteLength (before ++ after) = byteLength before + byteLength after := by
  induction before with
  | nil => simp [byteLength]
  | cons first rest ih => simp [byteLength, ih, Nat.add_assoc]

theorem byteLength_toList (text : String) : byteLength text.toList = text.utf8ByteSize := by
  suffices ∀ characters, byteLength characters = (String.ofList characters).utf8ByteSize by
    rw [this, String.ofList_toList]
  intro characters
  induction characters with
  | nil => rfl
  | cons first rest ih =>
    have hsingle : String.ofList [first] = String.singleton first := rfl
    rw [byteLength, ih, ← List.singleton_append, String.ofList_append, String.utf8ByteSize_append,
      hsingle, String.utf8ByteSize_singleton]

/-- A byte at which a character ends is found again from the text before it. -/
theorem column?_byteLength (before after : List Char) :
    column? (byteLength before) (before ++ after) = some before.length := by
  induction before with
  | nil => cases after <;> rfl
  | cons first rest ih =>
    obtain ⟨size, hsize⟩ : ∃ size, first.utf8Size = size + 1 :=
      ⟨first.utf8Size - 1, by have := first.utf8Size_pos; omega⟩
    have hlength : byteLength (first :: rest) = size + byteLength rest + 1 := by
      rw [byteLength, hsize]
      omega
    have hrest : size + byteLength rest + 1 - first.utf8Size = byteLength rest := by omega
    rw [hlength, List.cons_append, column?, if_pos (by omega), hrest, ih]
    rfl

end DiceNotation.Text
