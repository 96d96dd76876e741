import Rearrange.Expr.Match
import Rearrange.Expr.Set
import Rearrange.Expr.Walk
import Rearrange.Json.Form
import Rearrange.Main
import Rearrange.Parser.Node
import Rearrange.Parser.Routine
import Rearrange.Proofs.DoubleEquality
import Rearrange.Proofs.ExprEquality
import Rearrange.Proofs.NormalForm
import Rearrange.Proofs.Folds
import Rearrange.Proofs.FieldValue
import Rearrange.Proofs.Moves
import Rearrange.Proofs.QueueLineage
import Rearrange.Proofs.SearchSteps
import Rearrange.Proofs.SearchLayers
import Rearrange.Proofs.SearchOutcome
import Rearrange.Proofs.RationalReading
import Rearrange.Proofs.SameSolutions
import Rearrange.Proofs.JustifiedSolutions
import Rearrange.Proofs.Paths
import Rearrange.Proofs.ShortestPaths
import Rearrange.Proofs.GrammarSound
import Rearrange.Proofs.Chains
import Rearrange.Proofs.GrammarComplete
import Rearrange.Proofs.AcceptedSentences
import Rearrange.Proofs.Fractions
import Rearrange.Proofs.QueueRuns
import Rearrange.Proofs.HashedExpressions
import Rearrange.Proofs.SearchFolds
import Rearrange.Proofs.Simplified
import Rearrange.Proofs.GenuineSolutions
import Rearrange.Proofs.SoleOccurrence
import Rearrange.Proofs.DecimalText
import Rearrange.Proofs.SignBit
import Rearrange.Proofs.StatementForms
import Rearrange.Proofs.FailedReads
import Rearrange.Proofs.ChainedEquations
import Rearrange.Proofs.PrintedWords
import Rearrange.Proofs.FaithfulText
import Rearrange.Proofs.StableAnswers
import Rearrange.Proofs.Rounding
import Rearrange.Proofs.DecimalRounding
import Rearrange.Proofs.SearchBudget
import Rearrange.Proofs.LexemePatterns
import Rearrange.Proofs.LongestLexemes
import Rearrange.Proofs.ScannedTokens
import Rearrange.Proofs.TextRegions
import Rearrange.Proofs.FailureRegions
import Rearrange.Proofs.PhraseRegions
import Rearrange.Proofs.NamedTarget
import Rearrange.Proofs.ReadingDepth
import Rearrange.Proofs.SpacingInvariance
import Rearrange.Proofs.IndependentLines
import Rearrange.Proofs.RecordedSteps
import Rearrange.Proofs.Renaming
import Rearrange.Proofs.RenamedSearch
import Rearrange.Proofs.SimplifierRuns
import Rearrange.Proofs.ShrinkingRules
import Rearrange.Proofs.ConstantParts
import Rearrange.Proofs.NodeVisits
import Rearrange.Proofs.EqualSimplified
import Rearrange.Proofs.JsonLexemes
import Rearrange.Proofs.JsonText
import Rearrange.Proofs.JsonForms
import Rearrange.Proofs.ForwardReads
import Rearrange.Proofs.NodeReadings
import Rearrange.Proofs.ParserActs
import Rearrange.Proofs.RoutineReads
import Rearrange.Proofs.CallOrder
import Rearrange.Proofs.FatalErrors
import Rearrange.Proofs.FailedExpressions
import Rearrange.Proofs.HiddenErrors
import Rearrange.Proofs.UnfinishedExpressions
import Rearrange.Proofs.Parentheses
import Rearrange.Proofs.StrayParentheses
import Rearrange.Proofs.SearchAccounts
import Rearrange.Proofs.OperatorChains
import Rearrange.Proofs.Ancestry
