import DiceNotation.Faces.Script
import DiceNotation.Log
import DiceNotation.Main
import DiceNotation.Proofs.CanonicalText
import DiceNotation.Proofs.Composition
import DiceNotation.Proofs.DiceBudget
import DiceNotation.Proofs.DiceFound
import DiceNotation.Proofs.ParsedTrees
import DiceNotation.Proofs.Provenance
import DiceNotation.Proofs.RaisedLimits
import DiceNotation.Proofs.Replay
import DiceNotation.Proofs.ShownDice
import DiceNotation.Proofs.SubTotals
import DiceNotation.Proofs.Tiling
import DiceNotation.Proofs.Underway
import DiceNotation.Proofs.Ranking
import DiceNotation.Proofs.Chains
import DiceNotation.Proofs.Chase
import DiceNotation.Proofs.RerollChains
import DiceNotation.Proofs.ExplosionChains
import DiceNotation.Proofs.Reckoning
import DiceNotation.Proofs.BoundedArithmetic
import DiceNotation.Proofs.Offences
import DiceNotation.Proofs.Spacing
import DiceNotation.Proofs.Skipping
import DiceNotation.Proofs.SortedSlices
import DiceNotation.Proofs.Foresight
import DiceNotation.Proofs.Slices
import DiceNotation.Proofs.LetterCase
import DiceNotation.Proofs.Caret
import DiceNotation.Proofs.KeywordEdits
import DiceNotation.Proofs.Asking
import DiceNotation.Proofs.SumBounds
import DiceNotation.Proofs.Repeating
import DiceNotation.Proofs.PassingFaces
import DiceNotation.Proofs.ScriptedFaces
import DiceNotation.Proofs.FairFaces
import DiceNotation.Proofs.Sessions
import DiceNotation.Proofs.LiveDice
import DiceNotation.Proofs.NodeCounts
