import GrammarCompiler.Expect
import GrammarCompiler.Issue.Excerpt
import GrammarCompiler.Proofs.Compile
import GrammarCompiler.Proofs.Network.Decisions
import GrammarCompiler.Proofs.Network.Lookahead
import GrammarCompiler.Proofs.Network.LeftRecursion
import GrammarCompiler.Proofs.Network.Language
import GrammarCompiler.Proofs.Network.WellFormed
import GrammarCompiler.Proofs.Network.EmptyTokens
import GrammarCompiler.Proofs.Model.Language
import GrammarCompiler.Proofs.Model.Settled
import GrammarCompiler.Proofs.Model.Dispatch
import GrammarCompiler.Proofs.Model.Layout
import GrammarCompiler.Proofs.Model.Forced
import GrammarCompiler.Proofs.Model.Readings
import GrammarCompiler.Proofs.Ast.Stamped
import GrammarCompiler.Proofs.Ast.Shifted
import GrammarCompiler.Proofs.Recursion.Classified
import GrammarCompiler.Proofs.Recursion.Located
import GrammarCompiler.Proofs.Recursion.Labelled
import GrammarCompiler.Proofs.Recursion.Language
import GrammarCompiler.Proofs.Recursion.Expressions
import GrammarCompiler.Proofs.Recursion.LeftCalls
import GrammarCompiler.Proofs.IntervalSet.Reachable
import GrammarCompiler.Proofs.Vocabulary.Resolved
import GrammarCompiler.Proofs.Vocabulary.Symbolic
import GrammarCompiler.Proofs.Model.Fewest
import GrammarCompiler.Proofs.Model.Disjoint
import GrammarCompiler.Proofs.Issue.Message
import GrammarCompiler.Proofs.Issue.Offsets
import GrammarCompiler.Proofs.Network.Halting
import GrammarCompiler.Proofs.Token.History
