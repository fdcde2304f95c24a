import CryptoNav.Lib.Lots
import CryptoNav.Lib.RunningSum
import CryptoNav.Lib.Runs
import CryptoNav.Lib.Sorting
import CryptoNav.Pnl.Fifo
import CryptoNav.Pnl.SymbolState
import CryptoNav.Pnl.Nav
import CryptoNav.Pnl.Report
import CryptoNav.Pnl.Calculate
import CryptoNav.Pnl.Overview
import CryptoNav.Pnl.Agreement
import CryptoNav.Lib.Table
import CryptoNav.Lib.Clearing
import CryptoNav.Matching.Engine
import CryptoNav.Matching.Book
import CryptoNav.Matching.Refinement
import CryptoNav.Matching.Restart
import CryptoNav.Matching.Conservation
import CryptoNav.Sync.Lifecycle
import CryptoNav.Sync.Merge
import CryptoNav.Sync.Events
import CryptoNav.Sync.Run
import CryptoNav.Sync.Deltas
import CryptoNav.Matching.Metadata
import CryptoNav.Sync.Hedges
import CryptoNav.Sync.HedgeMetadata
import CryptoNav.Sync.Rows
import CryptoNav.Sync.Watermark
import CryptoNav.Dispatch.Pool
import CryptoNav.Dispatch.Calls
import CryptoNav.Dispatch.Cooldown
import CryptoNav.Dispatch.Quota
import CryptoNav.Auth.Store
import CryptoNav.Auth.Requests
import CryptoNav.Auth.Admins
import CryptoNav.Auth.Passwords
import CryptoNav.Limits.Overview
import CryptoNav.History.Watermark
import CryptoNav.Lib.Json
import CryptoNav.Lib.Decimal
import CryptoNav.History.Fields
import CryptoNav.History.Normalize
import CryptoNav.Lib.Distinct
import CryptoNav.History.Dedup
import CryptoNav.History.Interest
import CryptoNav.Pnl.Rolling
import CryptoNav.Pnl.Isolation
import CryptoNav.Intra.Orders
import CryptoNav.Intra.Accumulators
import CryptoNav.Intra.Fifo
import CryptoNav.Intra.Calculate
import CryptoNav.Lib.Balance
import CryptoNav.Intra.Lots
import CryptoNav.Intra.Conservation
import CryptoNav.Intra.Records
import CryptoNav.Intra.Views
import CryptoNav.Lib.Utf8
import CryptoNav.Lib.Lines
import CryptoNav.Monitor.Logs
import CryptoNav.Premium.Coverage
import CryptoNav.Overview.Refresh
import CryptoNav.Export.Orders
import CryptoNav.Export.Factors
import CryptoNav.Reconcile.Checkpoint
import CryptoNav.Live.Cycle
import CryptoNav.Live.Symbols
import CryptoNav.Live.Backfill
import CryptoNav.Live.Discovery
import CryptoNav.Live.Alignment
import CryptoNav.Live.Schedule
import CryptoNav.Lib.Mutex
import CryptoNav.Sync.Concurrent
import CryptoNav.Matching.Tally
import CryptoNav.Sync.Books
import CryptoNav.Matching.Replay
import CryptoNav.Sync.Endpoints
import CryptoNav.Dispatch.Retry
import CryptoNav.Dispatch.Sources
import CryptoNav.Sync.Reorder
import CryptoNav.Pnl.Captures
import CryptoNav.Overview.Drawdown
import CryptoNav.Pnl.Sampling
import CryptoNav.Pnl.Notebook
import CryptoNav.Pnl.Windows
import CryptoNav.Intra.Selection
import CryptoNav.Intra.Latency
import CryptoNav.Exchange.Client
import CryptoNav.Exchange.Trades
import CryptoNav.Exchange.Splitting
import CryptoNav.Exchange.Okx
import CryptoNav.Lib.Binary64
import CryptoNav.Limits.Guard
import CryptoNav.Auth.Rejected
import CryptoNav.Auth.Volatile
import CryptoNav.FeeRates.Slot
import CryptoNav.History.Multipliers
import CryptoNav.History.Symbols
import CryptoNav.Exchange.Gate
import CryptoNav.Exchange.Pager
import CryptoNav.Exchange.Cursors
import CryptoNav.Exchange.Ltp
import CryptoNav.Exchange.Identity
import CryptoNav.Exchange.Tiers
import CryptoNav.Exchange.Chunks
import CryptoNav.Reconcile.Unmatched
import CryptoNav.Monitor.Rotation
import CryptoNav.Pnl.Performance
import CryptoNav.Overview.MonitorSeries
import CryptoNav.Lib.Text
import CryptoNav.Monitor.Redact
import CryptoNav.Monitor.Parse
import CryptoNav.Lib.Queue
import CryptoNav.Monitor.Alerts
import CryptoNav.Monitor.Secrets
import CryptoNav.Lib.Partition
import CryptoNav.Lib.Bytes
import CryptoNav.Lib.Newest
import CryptoNav.Pnl.Interest
import CryptoNav.Pnl.Multipliers
import CryptoNav.Pnl.MultiplierRefresh
import CryptoNav.Feeds.MarkPrices
import CryptoNav.Feeds.AccountRisk
import CryptoNav.Feeds.Listener
import CryptoNav.Lib.Calendar
import CryptoNav.Lib.Csv
import CryptoNav.Export.Daily
import CryptoNav.Export.History
import CryptoNav.Reconcile.Exported
import CryptoNav.Reconcile.WorkDirs
import CryptoNav.Lib.Scientific
import CryptoNav.FeeRates.Rates
import CryptoNav.FeeRates.Sync
import CryptoNav.Exchange.Pacing
