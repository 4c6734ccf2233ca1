import Lox.CommandLine
import Lox.Syntax.Outline
import Lox.Interner
import Lox.Main
import Lox.Proofs.RunCongruence
import Lox.Proofs.RunFuel
import Lox.Proofs.DepthLimit
import Lox.Proofs.Semantics
import Lox.Proofs.SemanticsOperations
import Lox.Proofs.SemanticsSound
import Lox.Proofs.SemanticsComplete
import Lox.Proofs.SourcePieces
import Lox.Proofs.SourceLayout
import Lox.Proofs.Grammar
import Lox.Proofs.ParserSteps
import Lox.Proofs.ParserBudget
import Lox.Proofs.GrammarSound
import Lox.Proofs.GrammarTables
import Lox.Proofs.GrammarComplete
import Lox.Proofs.ParserGrammar
import Lox.Proofs.Encapsulation
import Lox.Proofs.ParserSeam
import Lox.Proofs.SourceSeam
import Lox.Proofs.JoinedSources
import Lox.Proofs.GrammarForms
import Lox.Proofs.ParserExactness
import Lox.Proofs.ExpressionExactness
import Lox.Proofs.StatementExactness
import Lox.Proofs.DoubleBits
import Lox.Proofs.Magnitudes
import Lox.Proofs.NumberText
import Lox.Proofs.ProgramParts
import Lox.Proofs.ErrorOrigins
import Lox.Proofs.ErrorRuns
import Lox.Proofs.Backtraces
import Lox.Proofs.WellPlaced
import Lox.Proofs.TokenText
import Lox.Proofs.SymbolicText
import Lox.Proofs.TreeText
import Lox.Proofs.GrammarAtoms
import Lox.Proofs.PrintedPrograms
import Lox.Proofs.CheckedAccess
import Lox.Proofs.Arena
import Lox.Proofs.FlatScan
import Lox.Proofs.FlatParser
import Lox.Proofs.FlatParserRules
import Lox.Proofs.FlatExpressions
import Lox.Proofs.FlatStatements
import Lox.Proofs.FlatRuns
import Lox.Proofs.FlatRunRules
import Lox.Proofs.FlatEvaluation
import Lox.Proofs.FlatSessions
import Lox.Proofs.LayoutErasure
import Lox.Proofs.LayoutIndependence
import Lox.Proofs.DeclarationSites
import Lox.Proofs.ScopeNames
import Lox.Proofs.CappedDepth
import Lox.Proofs.NameRoom
import Lox.Proofs.InertSources
import Lox.Proofs.Lookups
import Lox.Proofs.VariableLevels
import Lox.Proofs.PlannedScopes
import Lox.Proofs.SettledVariables
import Lox.Proofs.ForwardParsing
import Lox.Proofs.NamePlaces
import Lox.Proofs.LexicalLinks
import Lox.Proofs.LoopExpansion
import Lox.Proofs.SharedScopes
import Lox.Proofs.DoubleRounding
import Lox.Proofs.MaximalTokens
import Lox.Proofs.DeclarationCalls
import Lox.Proofs.ParserParts
import Lox.Proofs.ErrorRecovery
import Lox.Proofs.RespacedTokens
import Lox.Proofs.ParserFuel
import Lox.Proofs.CleanPrefix
import Lox.Proofs.NodeSpans
import Lox.Proofs.SpanNesting
import Lox.Proofs.NameTables
import Lox.Proofs.PromptLines
import Lox.Proofs.CommandGroups
import Lox.Proofs.DiagnosticShapes
import Lox.Proofs.SourceNames
import Lox.Proofs.ShortReports
import Lox.Proofs.ValueEquality
import Lox.Proofs.RecordedRuns
import Lox.Proofs.FunctionIdentity
import Lox.Proofs.DepthCounter
import Lox.Proofs.Boundaries
