import DiceNotation.Failure
import DiceNotation.Roll.Rolled

/-!
# Rolling a line of notation

A line is read with the standard keywords and rolled within the default limits. What happens on the
way is kept as notes.
-/
namespace DiceNotation

/-- The tokens of a line with the standard keywords. -/
def Expression.parse (line : String) : Except Failure Expression :=
  match tokenize .standard line with
  | .error error => .error (.lexing error)
  | .ok tokens =>
    match Expression.ofTokens tokens with
    | .error error => .error (.parsing error)
    | .ok expression => .ok expression

/-- The result of rolling a line, and the source afterwards. A line that is no expression draws
nothing. -/
def rollLine {σ : Type} [FaceSource σ] (line : String) (source : σ) : Except Failure Rolled × σ :=
  match Expression.parse line with
  | .error failure => (.error failure, source)
  | .ok expression =>
    match expression.roll {} source with
    | (.error error, after) => (.error (.rolling error), after)
    | (.ok evaluation, after) => (.ok ⟨expression, evaluation⟩, after)

/-- The results of rolling lines one after another with one source. -/
def rollLines {σ : Type} [FaceSource σ] (lines : List String) (source : σ) :
    List (Except Failure Rolled) × σ :=
  match lines with
  | [] => ([], source)
  | line :: rest =>
    let (result, source) := rollLine line source
    let (results, source) := rollLines rest source
    (result :: results, source)

end DiceNotation
