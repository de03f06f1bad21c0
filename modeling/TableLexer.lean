import TableLexer.Main
import TableLexer.Noise
import TableLexer.Proofs.CarriageReturns
import TableLexer.Proofs.Counters
import TableLexer.Proofs.Cycles
import TableLexer.Proofs.EndOfStream
import TableLexer.Proofs.EndPlacement
import TableLexer.Proofs.Engine.Bytes
import TableLexer.Proofs.Engine.Lexemes
import TableLexer.Proofs.FreshInput
import TableLexer.Proofs.InputOption
import TableLexer.Proofs.Json.Escapes
import TableLexer.Proofs.Json.NumberTokens
import TableLexer.Proofs.Json.Numbers
import TableLexer.Proofs.Json.Strings
import TableLexer.Proofs.LineCounting
import TableLexer.Proofs.LineEnds
import TableLexer.Proofs.Lookahead
import TableLexer.Proofs.MalformedInput
import TableLexer.Proofs.NamelessTokens
import TableLexer.Proofs.NoiseRuns
import TableLexer.Proofs.Partition
import TableLexer.Proofs.PatternSequences
import TableLexer.Proofs.QueueHistory
import TableLexer.Proofs.Reentry
import TableLexer.Proofs.Rescans
import TableLexer.Proofs.RuleCosts
import TableLexer.Proofs.UnfinishedTokens
import TableLexer.Proofs.Validation
import TableLexer.Proofs.WrappedSources
