import HotpathIpc.Library.Mealy
import HotpathIpc.Library.Greedy
import HotpathIpc.Library.Priority
import HotpathIpc.Library.Ring
import HotpathIpc.Library.Depth
import HotpathIpc.Library.StackEffect
import HotpathIpc.Library.ByteCode
import HotpathIpc.Library.Lists
import HotpathIpc.Library.Scan
import HotpathIpc.Library.Fallible
import HotpathIpc.Library.Throttle
import HotpathIpc.Library.Rescale
import HotpathIpc.Library.Saturating
import HotpathIpc.Library.Batching
import HotpathIpc.Library.Overflow
import HotpathIpc.Library.Gaps
import HotpathIpc.Library.OrderStatistic
import HotpathIpc.Library.Xorshift
import HotpathIpc.Library.Quoted
import HotpathIpc.Library.EventStream
import HotpathIpc.Library.Wakeup
import HotpathIpc.Library.Regex
import HotpathIpc.OrderBook.Book
import HotpathIpc.OrderBook.Levels
import HotpathIpc.OrderBook.Crossing
import HotpathIpc.OrderBook.Invariant
import HotpathIpc.OrderBook.Index
import HotpathIpc.OrderBook.Arithmetic
import HotpathIpc.OrderBook.Reference
import HotpathIpc.OrderBook.Conservation
import HotpathIpc.OrderBook.Outstanding
import HotpathIpc.OrderBook.Execution
import HotpathIpc.OrderBook.View
import HotpathIpc.OrderBook.Splitting
import HotpathIpc.OrderBook.Symmetry
import HotpathIpc.OrderBook.Erasure
import HotpathIpc.OrderBook.OnePrice
import HotpathIpc.OrderBook.QueuePosition
import HotpathIpc.Exchange.Participants
import HotpathIpc.Exchange.Venue
import HotpathIpc.Exchange.Bookkeeping
import HotpathIpc.Exchange.Reporting
import HotpathIpc.Exchange.Remaining
import HotpathIpc.Exchange.MarketMode
import HotpathIpc.Exchange.MarketData
import HotpathIpc.Exchange.Pricing
import HotpathIpc.Exchange.Seeded
import HotpathIpc.Exchange.Band
import HotpathIpc.Pipeline.Model
import HotpathIpc.Pipeline.Delivery
import HotpathIpc.Pipeline.Accounts
import HotpathIpc.Pipeline.Overflow
import HotpathIpc.Pipeline.Straddle
import HotpathIpc.Pipeline.Ledger
import HotpathIpc.Strategy.Bytecode
import HotpathIpc.Strategy.Compiler
import HotpathIpc.Strategy.Json
import HotpathIpc.Strategy.Indicators
import HotpathIpc.Strategy.Expr
import HotpathIpc.Strategy.Lowering
import HotpathIpc.Strategy.Unfolding
import HotpathIpc.Strategy.Steps
import HotpathIpc.Strategy.Provenance
import HotpathIpc.Strategy.Meaning
import HotpathIpc.Strategy.Correctness
import HotpathIpc.Strategy.Faithful
import HotpathIpc.Strategy.Totality
import HotpathIpc.Strategy.Dependence
import HotpathIpc.Strategy.WellFormed
import HotpathIpc.Strategy.StackDepth
import HotpathIpc.Strategy.CrashFree
import HotpathIpc.Strategy.Bytes
import HotpathIpc.Strategy.Reader
import HotpathIpc.Strategy.Checked
import HotpathIpc.Strategy.Truncation
import HotpathIpc.Strategy.JsonText
import HotpathIpc.Strategy.RoundTrip
import HotpathIpc.Strategy.Composite
import HotpathIpc.Strategy.Agreement
import HotpathIpc.Strategy.Cooldown
import HotpathIpc.Strategy.Risk
import HotpathIpc.Strategy.Bounded
import HotpathIpc.Strategy.Process
import HotpathIpc.Pipeline.Exposure
import HotpathIpc.Pipeline.System
import HotpathIpc.Pipeline.Waitset
import HotpathIpc.Timing.Tsc
import HotpathIpc.Timing.LatencyWindow
import HotpathIpc.Timing.Percentiles
import HotpathIpc.Timing.Benchmark
import HotpathIpc.Control.Params
import HotpathIpc.Control.Hub
import HotpathIpc.Control.Server
import HotpathIpc.Control.Lifecycle
import HotpathIpc.Control.Output
import HotpathIpc.Control.Dashboard
