import OrderbookEngine.Library.Transition
import OrderbookEngine.Library.LastWrite
import OrderbookEngine.Library.StdChoices
import OrderbookEngine.Library.ByteStream
import OrderbookEngine.Library.Program
import OrderbookEngine.Library.Interleaving
import OrderbookEngine.Library.Serial
import OrderbookEngine.Library.BestOf
import OrderbookEngine.Library.Linearizability
import OrderbookEngine.Library.Registry
import OrderbookEngine.Library.RegistryLinearizability
import OrderbookEngine.Library.CallStack
import OrderbookEngine.Library.OrderedMap
import OrderbookEngine.Library.Grouping
import OrderbookEngine.Library.GreedyFill
import OrderbookEngine.Library.Loop
import OrderbookEngine.Library.Participants
import OrderbookEngine.Library.OpenAddressing
import OrderbookEngine.Library.BoundedFifo
import OrderbookEngine.Library.SlidingWindow
import OrderbookEngine.Library.OrderStatistic
import OrderbookEngine.Library.Timeline
import OrderbookEngine.Library.TextSearch
import OrderbookEngine.Library.Decimal
import OrderbookEngine.Library.Calendar
import OrderbookEngine.Library.Stores
import OrderbookEngine.Library.Utf8
import OrderbookEngine.Library.Json
import OrderbookEngine.Library.CompactJson
import OrderbookEngine.Core.Types
import OrderbookEngine.Core.PriceIndexMap
import OrderbookEngine.Core.PriceIndexMapRefinement
import OrderbookEngine.Core.OrderBook
import OrderbookEngine.Core.OrderBookSlots
import OrderbookEngine.Core.OrderBookUpdate
import OrderbookEngine.Core.OrderBookRefinement
import OrderbookEngine.Core.OrderBookBest
import OrderbookEngine.Core.BookImbalance
import OrderbookEngine.Core.BookStatistics
import OrderbookEngine.Core.ZeroPrices
import OrderbookEngine.Core.SequenceNumbers
import OrderbookEngine.Core.OrderBookCapacity
import OrderbookEngine.Core.IndexBijection
import OrderbookEngine.Core.OrderBookManager
import OrderbookEngine.Core.LockFreePool
import OrderbookEngine.Core.PoolExclusivity
import OrderbookEngine.Core.PoolExhaustion
import OrderbookEngine.Core.PoolProgress
import OrderbookEngine.Core.PoolObjects
import OrderbookEngine.Core.PoolLifetimes
import OrderbookEngine.Core.PoolPtr
import OrderbookEngine.Core.SharedBook
import OrderbookEngine.Core.SnapshotConsistency
import OrderbookEngine.Core.ConcurrentUpdates
import OrderbookEngine.Core.ConcurrentManager
import OrderbookEngine.Core.ManagerAggregate
import OrderbookEngine.Core.ManagerGrouping
import OrderbookEngine.Core.AggregatedOrderBook
import OrderbookEngine.Core.AggregatedSnapshot
import OrderbookEngine.Core.ExchangeCount
import OrderbookEngine.Core.ArbitrageSoundness
import OrderbookEngine.Core.Routing
import OrderbookEngine.Core.RoutingPrice
import OrderbookEngine.Core.ArbitrageNotification
import OrderbookEngine.Exchange.Connector
import OrderbookEngine.Exchange.Reconnect
import OrderbookEngine.Exchange.Snapshots
import OrderbookEngine.Exchange.BatchedUpdates
import OrderbookEngine.Exchange.Subscriptions
import OrderbookEngine.Exchange.SubscriptionAgreement
import OrderbookEngine.Exchange.ConnectionManager
import OrderbookEngine.Exchange.ThreadOwnership
import OrderbookEngine.Exchange.ManagerThreads
import OrderbookEngine.Exchange.ManagerDeadlock
import OrderbookEngine.Network.WebSocketServer
import OrderbookEngine.Network.SubscribedDelivery
import OrderbookEngine.Network.WebSocketSession
import OrderbookEngine.Network.SessionWrites
import OrderbookEngine.Network.FrontendServer
import OrderbookEngine.Network.FrontendRequests
import OrderbookEngine.Network.SessionSet
import OrderbookEngine.Network.MessageFormatter
import OrderbookEngine.Network.BroadcastDelivery
import OrderbookEngine.Network.ServerMain
import OrderbookEngine.Network.StreamedUpdates
import OrderbookEngine.Network.ClientRequests
import OrderbookEngine.Persistence.BinaryFormat
import OrderbookEngine.Persistence.TextFormats
import OrderbookEngine.Persistence.RecorderSessions
import OrderbookEngine.Persistence.BytesWritten
import OrderbookEngine.Persistence.RecordReading
import OrderbookEngine.Persistence.Replayer
import OrderbookEngine.Persistence.TruncatedReplay
import OrderbookEngine.Persistence.RecordedReplay
import OrderbookEngine.Persistence.ReplayPacing
import OrderbookEngine.Persistence.ReplayTermination
import OrderbookEngine.Persistence.FileInfo
import OrderbookEngine.Persistence.ReplaySeek
import OrderbookEngine.Utils.RateLimiter
import OrderbookEngine.Utils.RateBound
import OrderbookEngine.Utils.RateReconfiguration
import OrderbookEngine.Utils.LockFreeQueue
import OrderbookEngine.Utils.QueueChain
import OrderbookEngine.Utils.QueueLinearizability
import OrderbookEngine.Utils.QueueReclamation
import OrderbookEngine.Utils.QueueSize
import OrderbookEngine.Utils.QueueProgress
import OrderbookEngine.Utils.RingBuffer
import OrderbookEngine.Utils.RingBufferRefinement
import OrderbookEngine.Utils.Iso8601
import OrderbookEngine.Utils.IsolatedCores
import OrderbookEngine.Metrics.Histogram
import OrderbookEngine.Metrics.HistogramSummary
import OrderbookEngine.Metrics.Percentiles
import OrderbookEngine.Metrics.ConcurrentRecording
import OrderbookEngine.Analytics.MarketAnalytics
import OrderbookEngine.Analytics.SlidingWindows
import OrderbookEngine.Analytics.CumulativeSums
import OrderbookEngine.Analytics.TimeWeighted
import OrderbookEngine.Trading.ArbitrageMonitor
import OrderbookEngine.Trading.MonitorCompleteness
import OrderbookEngine.Trading.OpportunityLifetimes
import OrderbookEngine.Trading.MonitorRuns
import OrderbookEngine.Trading.HistoryForm
import OrderbookEngine.Trading.Accounting
import OrderbookEngine.Config.Configuration
import OrderbookEngine.Config.ConfigurationManager
import OrderbookEngine.Config.FailedLoads
import OrderbookEngine.Config.EnvSubstitution
import OrderbookEngine.Config.SavedConfigurations
import OrderbookEngine.Library.Means
import OrderbookEngine.Analytics.IndicatorBounds
import OrderbookEngine.Library.HttpResponse
import OrderbookEngine.Network.RestResponses
import OrderbookEngine.Network.RestApiServer
import OrderbookEngine.Library.DrawnNumbers
import OrderbookEngine.Trading.HistoryIds
