import DiceNotation.Faces.Uniform

/-!
# Seeded random words

The keystream of the ChaCha cipher with twelve rounds, under a key that is drawn from a 64-bit seed
by a permuted congruential generator. Blocks count up from zero, and the nonce is zero.
-/
namespace DiceNotation

structure Keystream where
  key : Vector UInt32 8
  /-- The number of the next block. -/
  counter : UInt64
  /-- The words of the last block that are not handed out yet. -/
  ready : List UInt32
  deriving Repr

namespace Keystream

abbrev Block := Vector UInt32 16

def rotateLeft (word amount : UInt32) : UInt32 := (word <<< amount) ||| (word >>> (32 - amount))

def quarterRound (block : Block) (a b c d : Fin 16) : Block :=
  let block := block.set a (block[a] + block[b])
  let block := block.set d (rotateLeft (block[d] ^^^ block[a]) 16)
  let block := block.set c (block[c] + block[d])
  let block := block.set b (rotateLeft (block[b] ^^^ block[c]) 12)
  let block := block.set a (block[a] + block[b])
  let block := block.set d (rotateLeft (block[d] ^^^ block[a]) 8)
  let block := block.set c (block[c] + block[d])
  block.set b (rotateLeft (block[b] ^^^ block[c]) 7)

/-- Four rounds on the columns and four on the diagonals. -/
def doubleRound (block : Block) : Block :=
  let block := quarterRound block 0 4 8 12
  let block := quarterRound block 1 5 9 13
  let block := quarterRound block 2 6 10 14
  let block := quarterRound block 3 7 11 15
  let block := quarterRound block 0 5 10 15
  let block := quarterRound block 1 6 11 12
  let block := quarterRound block 2 7 8 13
  quarterRound block 3 4 9 14

def rounds : Nat → Block → Block
  | 0, block => block
  | n + 1, block => rounds n (doubleRound block)

/-- The constants, the key, the block number and an empty nonce. -/
def initial (key : Vector UInt32 8) (counter : UInt64) : Block :=
  #v[0x61707865, 0x3320646e, 0x79622d32, 0x6b206574,
    key[0], key[1], key[2], key[3], key[4], key[5], key[6], key[7],
    counter.toUInt32, (counter >>> 32).toUInt32, 0, 0]

def block (key : Vector UInt32 8) (counter : UInt64) : Block :=
  let start := initial key counter
  (rounds 6 start).zipWith (· + ·) start

def keyStep (state : UInt64) : UInt64 := state * 6364136223846793005 + 11634580027462260723

def keyWord (state : UInt64) : UInt32 :=
  let mixed : UInt64 := ((state >>> 18) ^^^ state) >>> 27
  let turn : UInt64 := state >>> 59
  rotateLeft mixed.toUInt32 (32 - turn.toUInt32)

/-- The state of the key generator after so many steps. -/
def keyState (seed : UInt64) : Nat → UInt64
  | 0 => seed
  | n + 1 => keyStep (keyState seed n)

def ofSeed (seed : UInt64) : Keystream where
  key := Vector.ofFn fun index => keyWord (keyState seed (index + 1))
  counter := 0
  ready := []

def word (stream : Keystream) : UInt32 × Keystream :=
  match stream.ready with
  | next :: ready => (next, { stream with ready := ready })
  | [] =>
    let words := block stream.key stream.counter
    (words[0], { stream with counter := stream.counter + 1, ready := words.toList.tail })

instance : WordSource Keystream := ⟨word⟩

end Keystream

/-- Fair faces that a seed determines. -/
abbrev SeededFaces := UniformFaces Keystream

def SeededFaces.ofSeed (seed : UInt64) : SeededFaces := ⟨Keystream.ofSeed seed⟩

end DiceNotation
