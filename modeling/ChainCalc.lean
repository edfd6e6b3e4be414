import ChainCalc.Session
import ChainCalc.CommandLine.Run
import ChainCalc.Main
import ChainCalc.Conversion
import ChainCalc.Proofs.Front
import ChainCalc.Proofs.Reading
import ChainCalc.Proofs.Chain
import ChainCalc.Proofs.Offence
import ChainCalc.Proofs.Traces
import ChainCalc.Proofs.Effects
import ChainCalc.Proofs.LineByLine
import ChainCalc.Proofs.Truncation
import ChainCalc.Proofs.Words
import ChainCalc.Proofs.Integers
import ChainCalc.Proofs.Rounding
import ChainCalc.Proofs.Exactness
import ChainCalc.Proofs.Relocation
import ChainCalc.Proofs.Wording
import ChainCalc.Proofs.Spacing
import ChainCalc.Proofs.Acts
import ChainCalc.Proofs.ExitStatus
import ChainCalc.Proofs.Cursor
import ChainCalc.Proofs.Sessions
import ChainCalc.Proofs.Arguments
import ChainCalc.Proofs.Sources
import ChainCalc.Proofs.Rendering
import ChainCalc.Proofs.Diagnosis
import ChainCalc.Proofs.Prompting
import ChainCalc.Proofs.Strictness
import ChainCalc.Proofs.LineEnds
import ChainCalc.Proofs.Nearest
import ChainCalc.Proofs.Widening
import ChainCalc.Proofs.TwoRoundings
import ChainCalc.Proofs.Decimals
import ChainCalc.Proofs.FewestDigits
import ChainCalc.Proofs.Layouts
import ChainCalc.Proofs.Lossless
import ChainCalc.Proofs.SignificantBits
import ChainCalc.Proofs.Tiling
import ChainCalc.Proofs.Printing
import ChainCalc.Proofs.NonFinite
import ChainCalc.Proofs.Interruption
import ChainCalc.Proofs.Shapes
import ChainCalc.Proofs.WordOperations
import ChainCalc.Proofs.Progress
import ChainCalc.Proofs.BlankLines
