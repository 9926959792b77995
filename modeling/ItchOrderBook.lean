import ItchOrderBook.Book.OrderBook
import ItchOrderBook.Feed.FeedHandler
import ItchOrderBook.Feed.FeedThread
import ItchOrderBook.Feed.Framing
import ItchOrderBook.Feed.SharedClosure
import ItchOrderBook.Foundation.AtomicProgram
import ItchOrderBook.Foundation.BoundedMap
import ItchOrderBook.Foundation.ByteOrder
import ItchOrderBook.Foundation.CallTraces
import ItchOrderBook.Foundation.Completion
import ItchOrderBook.Foundation.EntrySums
import ItchOrderBook.Foundation.ExactArithmetic
import ItchOrderBook.Foundation.FairRuns
import ItchOrderBook.Foundation.GroupTotals
import ItchOrderBook.Foundation.InPlaceRehash
import ItchOrderBook.Foundation.Linearization
import ItchOrderBook.Foundation.LocalWorlds
import ItchOrderBook.Foundation.MatchingRuns
import ItchOrderBook.Foundation.OpenAddressing
import ItchOrderBook.Foundation.OrderStatistics
import ItchOrderBook.Foundation.ReleaseAcquire
import ItchOrderBook.Foundation.RelyGuarantee
import ItchOrderBook.Foundation.Reordering
import ItchOrderBook.Foundation.Transfer
import ItchOrderBook.MarketData.Admission
import ItchOrderBook.MarketData.Alignment
import ItchOrderBook.MarketData.BookAgreement
import ItchOrderBook.MarketData.Commutation
import ItchOrderBook.MarketData.Conservation
import ItchOrderBook.MarketData.FairReplay
import ItchOrderBook.MarketData.FrameReading
import ItchOrderBook.MarketData.Handler
import ItchOrderBook.MarketData.Ledger
import ItchOrderBook.MarketData.LedgerRuns
import ItchOrderBook.MarketData.LocateCache
import ItchOrderBook.MarketData.Market
import ItchOrderBook.MarketData.Messages
import ItchOrderBook.MarketData.MissedOrders
import ItchOrderBook.MarketData.Orders
import ItchOrderBook.MarketData.Poll
import ItchOrderBook.MarketData.Reconstruction
import ItchOrderBook.MarketData.Recovery
import ItchOrderBook.MarketData.ReplayEnds
import ItchOrderBook.MarketData.Saturation
import ItchOrderBook.MarketData.Session
import ItchOrderBook.MarketData.SessionOutcome
import ItchOrderBook.MarketData.SessionSafety
import ItchOrderBook.MarketData.Shutdown
import ItchOrderBook.MarketData.WeakReplay
import ItchOrderBook.MarketData.WireMembers
import ItchOrderBook.MarketData.WrittenFeed
import ItchOrderBook.Spmc.AccessRules
import ItchOrderBook.Spmc.BatchAgreement
import ItchOrderBook.Spmc.BatchRuns
import ItchOrderBook.Spmc.CallViews
import ItchOrderBook.Spmc.ClosedTail
import ItchOrderBook.Spmc.Closing
import ItchOrderBook.Spmc.ConsumerSafety
import ItchOrderBook.Spmc.DataRaces
import ItchOrderBook.Spmc.Discipline
import ItchOrderBook.Spmc.LaggingWorlds
import ItchOrderBook.Spmc.Linearizability
import ItchOrderBook.Spmc.LoneProducer
import ItchOrderBook.Spmc.LoneReader
import ItchOrderBook.Spmc.MemoryOrders
import ItchOrderBook.Spmc.ProducerSafety
import ItchOrderBook.Spmc.PushAdmission
import ItchOrderBook.Spmc.QueueSafety
import ItchOrderBook.Spmc.RingBuffer
import ItchOrderBook.Spmc.SlotReads
import ItchOrderBook.Spmc.WorldSteps
import ItchOrderBook.Stse.ConstantEvaluation
import ItchOrderBook.Stse.FieldWalk
import ItchOrderBook.Stse.FlatPath
import ItchOrderBook.Stse.Inheritance
import ItchOrderBook.Stse.Layout
import ItchOrderBook.Stse.LayoutReach
import ItchOrderBook.Stse.MetaUtils
import ItchOrderBook.Stse.NativeRoundTrip
import ItchOrderBook.Stse.RangeMerging
import ItchOrderBook.Stse.RoundTrip
import ItchOrderBook.Stse.Serialize
import ItchOrderBook.Util.Lookups
import ItchOrderBook.Util.MapContent
import ItchOrderBook.Util.OpenAddressMap
import ItchOrderBook.Util.OpenAddressMapCalls
import ItchOrderBook.Util.OpenAddressMapRehash
import ItchOrderBook.Util.OpenAddressMapRuns
import ItchOrderBook.Util.OpenAddressMapSpec
import ItchOrderBook.Util.Probe
import ItchOrderBook.Util.ProbeTermination
import ItchOrderBook.Util.QuartileBuffer
import ItchOrderBook.Util.TombstoneCounter
import ItchOrderBook.Util.TombstoneProbe
