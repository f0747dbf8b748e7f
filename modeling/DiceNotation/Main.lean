import DiceNotation.Shell

/-!
# The program

Reads lines from standard input and answers each on standard output as it comes.
-/
open DiceNotation

partial def converseOn (input output : IO.FS.Stream) (faces : SeededFaces) : IO Unit := do
  if ← input.isTty then
    output.putStr "$ "
    output.flush
  let line ← input.getLine
  if line.isEmpty then
    return
  match Shell.Request.ofLine line.toList with
  | .nothing => converseOn input output faces
  | .leave => return
  | .roll text =>
    let (result, faces) := rollLine text faces
    output.putStrLn (Shell.answer text result)
    output.flush
    converseOn input output faces

def main (arguments : List String) : IO UInt32 := do
  match Shell.readArguments arguments with
  | .error error =>
    (← IO.getStderr).putStr (Shell.unlines [error.message, Shell.usage])
    return 2
  | .ok seed =>
    let bytes ← IO.getRandomBytes 8
    let entropy := bytes.foldl (fun seed byte => seed * 256 + byte.toUInt64) 0
    IO.println Shell.greeting
    converseOn (← IO.getStdin) (← IO.getStdout) (.ofSeed (seed.getD entropy))
    return 0
