import DiceNotation.Faces

/-!
# Fair faces from random words

A 32-bit word times the number of sides has the face in its upper half. Words whose lower half is
not below `sides * spread sides` are thrown away, so that every face is left with equally many.
-/
namespace DiceNotation

class WordSource (ω : Type) where
  word : ω → UInt32 × ω

structure UniformFaces (ω : Type) where
  words : ω

namespace UniformFaces

/-- How many words each face keeps: the largest power of two for which there are enough. -/
def spread (sides : Nat) : Nat := 1 <<< (31 - Nat.log2 sides)

def isAccepted (sides word : Nat) : Bool := word * sides % UInt32.size < sides * spread sides

def faceOf (sides word : Nat) : Nat := word * sides / UInt32.size + 1

theorem faceOf_le {sides word : Nat} (hsides : 0 < sides) (hword : word < UInt32.size) :
    faceOf sides word ≤ sides :=
  Nat.div_lt_of_lt_mul (Nat.mul_lt_mul_of_pos_right hword hsides)

/-- The face of the first accepted word, if there is one in so many attempts. -/
def drawWithin {ω : Type} [WordSource ω] (sides : Nat) : Nat → ω → Option UInt32 × ω
  | 0, words => (none, words)
  | attempts + 1, words =>
    let (word, words) := WordSource.word words
    if isAccepted sides word.toNat then
      (some (UInt32.ofNat (faceOf sides word.toNat)), words)
    else
      drawWithin sides attempts words

/-- Draws words until one is accepted. At least half of all words are, so a source with none in so
many attempts is no random one, and it does not matter what the die shows. -/
def draw {ω : Type} [WordSource ω] (sides : UInt32) (source : UniformFaces ω) :
    UInt32 × UniformFaces ω :=
  let (face, words) := drawWithin (max sides 1).toNat UInt32.size source.words
  (face.getD 1, ⟨words⟩)

instance {ω : Type} [WordSource ω] : FaceSource (UniformFaces ω) := { draw }

end UniformFaces

/-- Words of a generator that was recorded, over and over. -/
structure RecordedWords where
  words : Array UInt32
  used : Nat
  deriving Repr

instance : WordSource RecordedWords where
  word recorded :=
    ((recorded.words[recorded.used % recorded.words.size]?).getD 0,
      { recorded with used := recorded.used + 1 })

end DiceNotation
