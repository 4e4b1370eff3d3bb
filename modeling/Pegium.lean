import Pegium.SyntaxTree.Speculation
import Pegium.Parser.TerminalPath
import Pegium.Parser.SpanLaw
import Pegium.Parser.InfixTree
import Pegium.Parser.MaximalMunch
import Pegium.Workspace.Staleness
import Pegium.Workspace.LostUpdate
import Pegium.Workspace.Exclusivity
import Pegium.Workspace.FactoryFailures
import Pegium.Workspace.FactoryRuns
import Pegium.Workspace.FailureIsolation
import Pegium.References.Completion
import Pegium.Parser.RecoveryMarks
import Pegium.Parser.RecoveryAccounting
import Pegium.Parser.RecoveryDriver
import Pegium.Workspace.BookkeepingRuns
import Pegium.Workspace.StoreCoherence
import Pegium.Parser.RecoveryCandidate
import Pegium.Workspace.TextEdits
import Pegium.Parser.FailureHistory
import Pegium.Parser.FuzzyOptimality
import Pegium.Parser.SingleEdit
import Pegium.SyntaxTree.AstReflection
import Pegium.References.ScopeProvider
import Pegium.Services.JsonValue
import Pegium.Workspace.UriContainment
import Pegium.Workspace.DocumentCache
import Pegium.Workspace.Readiness
import Pegium.Workspace.WatchedFiles
import Pegium.Workspace.Waiting
import Pegium.Lsp.DefaultFuzzyMatcher
import Pegium.Parser.Skipping
import Pegium.Validation.DefaultValidationRegistry
import Pegium.Parser.EditPruning
import Pegium.SyntaxTree.CstUtils
import Pegium.References.DefaultNameProvider
import Pegium.Parser.ChoiceAttempt
import Pegium.Lsp.SelectionRange
import Pegium.Parser.DeleteScan
import Pegium.Parser.TerminalRecoverySupport
import Pegium.SyntaxTree.AstUtils
import Pegium.Parser.AstReflectionBootstrap
import Pegium.Lsp.DefaultRenameProvider
import Pegium.Documentation.DocCommentRanges
import Pegium.Lsp.SteadyComments
import Pegium.Lsp.SemanticTokensRoundTrip
import Pegium.Lsp.ParsedFormatting
import Pegium.Lsp.DefaultTextDocuments
import Pegium.Lsp.RequestLifecycle
