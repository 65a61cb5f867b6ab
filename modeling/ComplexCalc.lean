import ComplexCalc.Main
import ComplexCalc.Proofs.SyntaxErrors
import ComplexCalc.Proofs.TreeHeight
import ComplexCalc.Proofs.Substitution
import ComplexCalc.Proofs.ComparisonMode
import ComplexCalc.Proofs.TypedValues
import ComplexCalc.Proofs.Numerals
import ComplexCalc.Proofs.ReadBack
import ComplexCalc.Proofs.NaNFree
import ComplexCalc.Proofs.ErrorPositions
import ComplexCalc.Proofs.Replies
import ComplexCalc.Proofs.SessionInput
import ComplexCalc.Proofs.NestingLimit
import ComplexCalc.Proofs.Effects
import ComplexCalc.Proofs.WhiteSpace
import ComplexCalc.Proofs.SquaredMagnitude
import ComplexCalc.Proofs.Commuting
import ComplexCalc.Proofs.Verdicts
import ComplexCalc.Proofs.Overflow
import ComplexCalc.Proofs.ShownNumbers
import ComplexCalc.Proofs.Names
import ComplexCalc.Proofs.LogRecords
import ComplexCalc.Proofs.Drawings
import ComplexCalc.Proofs.JoinedTexts
import ComplexCalc.Proofs.ChainLength
import ComplexCalc.Proofs.FileLines
import ComplexCalc.Proofs.Locality
import ComplexCalc.Proofs.PlainLines
import ComplexCalc.Proofs.Bindings
import ComplexCalc.Proofs.CallBudget
