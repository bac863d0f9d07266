import SwitchingAlgebra.Connective
import SwitchingAlgebra.Cover.Basic
import SwitchingAlgebra.Cover.Minimum
import SwitchingAlgebra.Cover.Packed
import SwitchingAlgebra.Cover.Primes
import SwitchingAlgebra.Cover.Printer
import SwitchingAlgebra.Cover.Search
import SwitchingAlgebra.Cover.Table
import SwitchingAlgebra.Cover.Tautology
import SwitchingAlgebra.Cube
import SwitchingAlgebra.Evaluation
import SwitchingAlgebra.Expr.Basic
import SwitchingAlgebra.Expr.Leaves
import SwitchingAlgebra.Expr.Printer
import SwitchingAlgebra.Expr.Shape
import SwitchingAlgebra.FormulaList
import SwitchingAlgebra.NormalForm
import SwitchingAlgebra.Operand
import SwitchingAlgebra.Operators
import SwitchingAlgebra.Policy
import SwitchingAlgebra.Reading.Descent
import SwitchingAlgebra.Reading.Error
import SwitchingAlgebra.Reading.Parse
import SwitchingAlgebra.Reading.Token
import SwitchingAlgebra.Sorting
import SwitchingAlgebra.Substitution
import SwitchingAlgebra.Symbol
import SwitchingAlgebra.Term
import SwitchingAlgebra.Text.Blank
import SwitchingAlgebra.Text.Extender
import SwitchingAlgebra.Text.Quoted
import SwitchingAlgebra.Text.Ranges
import SwitchingAlgebra.Text.Unprintable
import SwitchingAlgebra.Transform.Distribution
import SwitchingAlgebra.Transform.Flattening
import SwitchingAlgebra.Transform.Negation
import SwitchingAlgebra.TruthTable
import SwitchingAlgebra.Proofs.CoverPoints
import SwitchingAlgebra.Proofs.Primes
import SwitchingAlgebra.Proofs.Incidence
import SwitchingAlgebra.Proofs.Search
import SwitchingAlgebra.Proofs.Tautology
import SwitchingAlgebra.Proofs.MinimumCover
import SwitchingAlgebra.Proofs.WideCovers
import SwitchingAlgebra.Proofs.CubeOperations
import SwitchingAlgebra.Proofs.CoverOperations
import SwitchingAlgebra.Proofs.Shapes
import SwitchingAlgebra.Proofs.Terms
import SwitchingAlgebra.Proofs.TwoLevel
import SwitchingAlgebra.Proofs.Soundness
import SwitchingAlgebra.Proofs.Rebuilding
import SwitchingAlgebra.Proofs.PrimeTerms
import SwitchingAlgebra.Proofs.Canonicity
import SwitchingAlgebra.Proofs.Grammar
import SwitchingAlgebra.Proofs.Derivation
import SwitchingAlgebra.Proofs.EvaluatedForms
import SwitchingAlgebra.Proofs.Grouping
import SwitchingAlgebra.Proofs.WrittenTokens
import SwitchingAlgebra.Proofs.Lexemes
import SwitchingAlgebra.Proofs.Printing
import SwitchingAlgebra.Proofs.EvaluatedSymbols
import SwitchingAlgebra.Proofs.RoundTrip
import SwitchingAlgebra.Proofs.Rearrangement
import SwitchingAlgebra.Proofs.MinimumTerms
import SwitchingAlgebra.Proofs.NeededLiterals
import SwitchingAlgebra.Proofs.Reachable
import SwitchingAlgebra.Proofs.MinimumForms
import SwitchingAlgebra.Proofs.Symmetries
import SwitchingAlgebra.Proofs.Duality
import SwitchingAlgebra.Proofs.Sizes
import SwitchingAlgebra.Proofs.Renaming
import SwitchingAlgebra.Proofs.EvaluatingPolicies
import SwitchingAlgebra.Proofs.PrefixedReading
import SwitchingAlgebra.Proofs.TransformationSteps
import SwitchingAlgebra.Proofs.KeptByTransformations
import SwitchingAlgebra.Proofs.CrossedTerms
import SwitchingAlgebra.Proofs.OperandOrder
import SwitchingAlgebra.Proofs.NestedCalls
import SwitchingAlgebra.Proofs.TransformationSequences
import SwitchingAlgebra.Proofs.BooleanLaws
import SwitchingAlgebra.Proofs.Replacement
import SwitchingAlgebra.Proofs.TruthTables
import SwitchingAlgebra.Proofs.NormalForms
import SwitchingAlgebra.Proofs.DecidingConstants
import SwitchingAlgebra.Proofs.NegatedNormalForms
import SwitchingAlgebra.Proofs.DistributedForms
import SwitchingAlgebra.Proofs.PushedNegations
import SwitchingAlgebra.Proofs.EvaluatedReading
import SwitchingAlgebra.Proofs.Descent
import SwitchingAlgebra.Proofs.SyntaxErrors
import SwitchingAlgebra.Proofs.FlattenedForms
import SwitchingAlgebra.Proofs.TermExpansion
import SwitchingAlgebra.Proofs.CheapestChoice
import SwitchingAlgebra.Proofs.PackedCubes
import SwitchingAlgebra.Proofs.CoveringRows
import SwitchingAlgebra.Proofs.FormulaChecks
