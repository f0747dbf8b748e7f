import DiceNotation.Faces.Keystream
import DiceNotation.Line
import DiceNotation.Text.Blank

/-!
# The shell

A conversation over lines of text: every line is rolled and answered, until one says exit.
-/
namespace DiceNotation.Shell

inductive UsageError
  | missingSeed
  | invalidSeed (text : String)
  | unknownArgument (text : String)
  deriving DecidableEq, Repr

def UsageError.message : UsageError → String
  | missingSeed => "--seed needs a value"
  | invalidSeed text => s!"--seed expects a whole number, got '{text}'"
  | unknownArgument text => s!"unknown argument '{text}'"

def usage : String := "usage: kismet [--seed <u64>]"

/-- A decimal 64-bit number, with one plus sign at most before it. -/
def seed? (text : String) : Option UInt64 :=
  let digits := match text.toList with
    | '+' :: digits => digits
    | digits => digits
  let value := Nat.ofDigitChars 10 digits 0
  if !digits.isEmpty && digits.all Char.isDigit && value < UInt64.size then
    some (UInt64.ofNat value)
  else
    none

def readArgumentsAfter (seed : Option UInt64) : List String → Except UsageError (Option UInt64)
  | [] => .ok seed
  | "--seed" :: [] => .error .missingSeed
  | "--seed" :: value :: rest =>
    match seed? value with
    | some seed => readArgumentsAfter (some seed) rest
    | none => .error (.invalidSeed value)
  | argument :: _ => .error (.unknownArgument argument)

/-- The seed that the arguments ask for, the last of several. -/
def readArguments (arguments : List String) : Except UsageError (Option UInt64) :=
  readArgumentsAfter none arguments

def greeting : String :=
  "Greetings, human! I am Kismet <3\nInput a roll and press ENTER.\nExit with 'exit' or CTRL-D."

/-- What a line of input asks for. -/
inductive Request
  | nothing
  | leave
  | roll (line : String)
  deriving DecidableEq, Repr

def Request.ofLine (line : List Char) : Request :=
  let input := Text.trimmed line
  if input.isEmpty then .nothing
  else if input.map Char.toLower = "exit".toList then .leave
  else .roll (String.ofList input)

/-- The answer to a line that was rolled. -/
def answer (line : String) : Except Failure Rolled → String
  | .ok rolled => rolled.text
  | .error failure =>
    if failure.report.isDefect then
      s!"Something went wrong on my side, sorry! ({failure.message})"
    else
      failure.report.describe line

/-- The answers to lines of input up to the one that leaves. -/
def converse {σ : Type} [FaceSource σ] (source : σ) : List (List Char) → List String
  | [] => []
  | line :: rest =>
    match Request.ofLine line with
    | .nothing => converse source rest
    | .leave => []
    | .roll input =>
      let (result, source) := rollLine input source
      answer input result :: converse source rest

/-- What a run of the shell leaves behind. -/
structure Transcript where
  output : String
  errors : String
  exitCode : UInt32
  deriving DecidableEq, Repr

def unlines (lines : List String) : String := String.join (lines.map (· ++ "\n"))

/-- A whole run; `entropy` seeds the dice when the arguments do not. -/
def run (entropy : UInt64) (arguments : List String) (input : String) : Transcript :=
  match readArguments arguments with
  | .error error => ⟨"", unlines [error.message, usage], 2⟩
  | .ok seed =>
    let faces := SeededFaces.ofSeed (seed.getD entropy)
    ⟨unlines (greeting :: converse faces (input.toList.splitOn '\n')), "", 0⟩

end DiceNotation.Shell
