import DiceNotation.Text.Hidden

/-!
# Quoted characters

A character between single quotes, with an escape where it would not show.
-/
namespace DiceNotation.Text

def hex (character : Char) : String := String.ofList (Nat.toDigits 16 character.toNat)

def escaped (character : Char) : String :=
  match character with
  | '\x00' => "\\0"
  | '\t' => "\\t"
  | '\r' => "\\r"
  | '\n' => "\\n"
  | '\x27' => "\\'"
  | '\x5c' => "\\\\"
  | _ =>
    if isHidden character then "\\u\x7b" ++ hex character ++ "\x7d"
    else String.singleton character

def quoted (character : Char) : String := "'" ++ escaped character ++ "'"

end DiceNotation.Text
