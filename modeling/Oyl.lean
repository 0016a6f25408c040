import Oyl.Parser.Driver
import Oyl.Logic.Unfolding
import Oyl.Expand.Resolution
import Oyl.Expand.MergeOrderly
import Oyl.Expand.Cycles
import Oyl.Events.EagerFlow
import Oyl.Logic.Lines
import Oyl.Tokens.Moves
import Oyl.Tokens.Cursor
import Oyl.Tokens.Scalars
import Oyl.Tokens.Escapes
import Oyl.Tokens.Names
import Oyl.Tokens.Scan
import Oyl.Tokens.Gaps
import Oyl.Tokens.Runs
import Oyl.Tokens.Positions
import Oyl.Tokens.Progress
import Oyl.Expand.Buffers
import Oyl.Expand.Budget
import Oyl.Expand.Binding
import Oyl.Events.DocumentFrame
import Oyl.Events.StepFrame
import Oyl.Logic.Folding
import Oyl.Tokens.Pieces
import Oyl.Tokens.SingleQuoted
import Oyl.Tokens.Dispatch
import Oyl.Tokens.BlockHeader
import Oyl.Tokens.PlainScalar
import Oyl.Tokens.BlockTokens
import Oyl.Logic.Utf8
import Oyl.Tokens.DoubleQuoted
import Oyl.Tokens.EscapeTable
import Oyl.Tokens.JoinedLines
import Oyl.Logic.Vectors
import Oyl.Scanner.Simd
import Oyl.Tokens.Vectorised
import Oyl.Logic.Languages
import Oyl.Tags.CoreSchema
import Oyl.Emitter.Scalars
import Oyl.Emitter.StringTags
import Oyl.Logic.OpenAddressing
import Oyl.Expand.AnchorTable
import Oyl.Expand.BindingRule
import Oyl.Emitter.Quoted
import Oyl.Emitter.Tags
import Oyl.Tokens.QuotedBuffer
import Oyl.Tokens.TextLines
import Oyl.Tokens.BlockLines
import Oyl.Tokens.BlockText
import Oyl.Tokens.BlockBuffer
import Oyl.Emitter.Literal
import Oyl.Emitter.Plain
import Oyl.Logic.RollingHash
import Oyl.Fallback.Signature
import Oyl.Expand.Extent
import Oyl.Fallback.Queue
import Oyl.Events.Audit
import Oyl.Fallback.Runs
import Oyl.Parser.FlowCursor
import Oyl.Lookahead.Stops
import Oyl.Lookahead.Quoted
import Oyl.Expand.AnchorIndex
import Oyl.Logic.Words
import Oyl.Arena.Blocks
import Oyl.Arena.Safety
import Oyl.Emitter.State
import Oyl.Emitter.OneLine
import Oyl.Lookahead.Cache
import Oyl.Tags.FilledTags
import Oyl.Events.BlockNodes
import Oyl.Events.Chunks
import Oyl.Events.EagerDocuments
import Oyl.Events.EagerRuns
import Oyl.Logic.Triples
import Oyl.Events.StepPlaces
import Oyl.Events.Steps
import Oyl.Tokens.Stacks
import Oyl.Events.Reports
import Oyl.Events.DefaultRuns
import Oyl.Events.EventLimit
import Oyl.Emitter.Nesting
