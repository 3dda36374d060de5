import ViabtcServer.Access.Front
import ViabtcServer.Access.Routing
import ViabtcServer.Access.Sequence
import ViabtcServer.AccessHttp.Pipeline
import ViabtcServer.AccessWs.Close
import ViabtcServer.AccessWs.Deals
import ViabtcServer.AccessWs.DealsFeed
import ViabtcServer.AccessWs.Depth
import ViabtcServer.AccessWs.DepthFeed
import ViabtcServer.AccessWs.Feed
import ViabtcServer.AccessWs.Private
import ViabtcServer.AccessWs.Server
import ViabtcServer.AccessWs.Sessions
import ViabtcServer.Accounting.Balances
import ViabtcServer.Accounting.Statement
import ViabtcServer.Auction.Levels
import ViabtcServer.Auction.PriceTime
import ViabtcServer.Auction.Purchase
import ViabtcServer.Chart.Candle
import ViabtcServer.Chart.Ladder
import ViabtcServer.Container.DayTables
import ViabtcServer.Container.Dict
import ViabtcServer.Container.DictBuckets
import ViabtcServer.Container.DictIteration
import ViabtcServer.Container.DictRuns
import ViabtcServer.Container.DictTable
import ViabtcServer.Container.Feed
import ViabtcServer.Container.Fifo
import ViabtcServer.Container.HashTable
import ViabtcServer.Container.LinkedList
import ViabtcServer.Container.ListRuns
import ViabtcServer.Container.Log
import ViabtcServer.Container.Paging
import ViabtcServer.Container.ResultCache
import ViabtcServer.Container.SkipLevels
import ViabtcServer.Container.SkipList
import ViabtcServer.Container.SkipOperations
import ViabtcServer.Container.SkipRuns
import ViabtcServer.Container.Skiplist
import ViabtcServer.Container.WriteBack
import ViabtcServer.Decimal.Alike
import ViabtcServer.Decimal.Capacity
import ViabtcServer.Decimal.Column
import ViabtcServer.Decimal.Divmod
import ViabtcServer.Decimal.Libmpdec
import ViabtcServer.Decimal.Reference
import ViabtcServer.Decimal.Scientific
import ViabtcServer.Decimal.Signs
import ViabtcServer.Decimal.Truncation
import ViabtcServer.Http.Request
import ViabtcServer.Http.Segments
import ViabtcServer.MarketPrice.Backed
import ViabtcServer.MarketPrice.Candles
import ViabtcServer.MarketPrice.Dirty
import ViabtcServer.MarketPrice.Flush
import ViabtcServer.MarketPrice.Kline
import ViabtcServer.MarketPrice.KlineText
import ViabtcServer.MarketPrice.Levels
import ViabtcServer.MarketPrice.Load
import ViabtcServer.MarketPrice.Months
import ViabtcServer.MarketPrice.Process
import ViabtcServer.MarketPrice.Query
import ViabtcServer.MarketPrice.QueryCache
import ViabtcServer.MarketPrice.Resume
import ViabtcServer.MarketPrice.Series
import ViabtcServer.MarketPrice.Slots
import ViabtcServer.MarketPrice.Window
import ViabtcServer.MatchEngine.Account
import ViabtcServer.MatchEngine.Admission
import ViabtcServer.MatchEngine.Arguments
import ViabtcServer.MatchEngine.Arithmetic
import ViabtcServer.MatchEngine.Balance
import ViabtcServer.MatchEngine.BalanceStore
import ViabtcServer.MatchEngine.Book
import ViabtcServer.MatchEngine.Clearing
import ViabtcServer.MatchEngine.Command
import ViabtcServer.MatchEngine.Conservation
import ViabtcServer.MatchEngine.Consistency
import ViabtcServer.MatchEngine.Core
import ViabtcServer.MatchEngine.Depth
import ViabtcServer.MatchEngine.DepthCache
import ViabtcServer.MatchEngine.Dump
import ViabtcServer.MatchEngine.Engine
import ViabtcServer.MatchEngine.EscapeBuffer
import ViabtcServer.MatchEngine.Exactness
import ViabtcServer.MatchEngine.Fill
import ViabtcServer.MatchEngine.Frozen
import ViabtcServer.MatchEngine.Handlers
import ViabtcServer.MatchEngine.HistoryBatch
import ViabtcServer.MatchEngine.HistorySql
import ViabtcServer.MatchEngine.Index
import ViabtcServer.MatchEngine.JsonDumps
import ViabtcServer.MatchEngine.Lifespan
import ViabtcServer.MatchEngine.Lifetime
import ViabtcServer.MatchEngine.LimitOrder
import ViabtcServer.MatchEngine.Load
import ViabtcServer.MatchEngine.LoadSlice
import ViabtcServer.MatchEngine.Loop
import ViabtcServer.MatchEngine.Loss
import ViabtcServer.MatchEngine.Magnitude
import ViabtcServer.MatchEngine.Market
import ViabtcServer.MatchEngine.MarketBid
import ViabtcServer.MatchEngine.MarketOrder
import ViabtcServer.MatchEngine.Matching
import ViabtcServer.MatchEngine.Message
import ViabtcServer.MatchEngine.OrderAccount
import ViabtcServer.MatchEngine.OrderFeed
import ViabtcServer.MatchEngine.OrderQuery
import ViabtcServer.MatchEngine.OrderStream
import ViabtcServer.MatchEngine.Priority
import ViabtcServer.MatchEngine.Reach
import ViabtcServer.MatchEngine.Records
import ViabtcServer.MatchEngine.Recovery
import ViabtcServer.MatchEngine.Refusal
import ViabtcServer.MatchEngine.Repeat
import ViabtcServer.MatchEngine.Replay
import ViabtcServer.MatchEngine.Restart
import ViabtcServer.MatchEngine.Resubmission
import ViabtcServer.MatchEngine.Rollback
import ViabtcServer.MatchEngine.RoundTrip
import ViabtcServer.MatchEngine.Rules
import ViabtcServer.MatchEngine.Server
import ViabtcServer.MatchEngine.Settlement
import ViabtcServer.MatchEngine.Shutdown
import ViabtcServer.MatchEngine.Slice
import ViabtcServer.MatchEngine.Summary
import ViabtcServer.MatchEngine.Supply
import ViabtcServer.MatchEngine.TradeDetails
import ViabtcServer.MatchEngine.Trading
import ViabtcServer.MatchEngine.Untimed
import ViabtcServer.MatchEngine.UpdateReplay
import ViabtcServer.MatchEngine.Writers
import ViabtcServer.Memory.Buckets
import ViabtcServer.Memory.Chain
import ViabtcServer.Memory.Heap
import ViabtcServer.Memory.Iteration
import ViabtcServer.Memory.Rehash
import ViabtcServer.Network.Buffer
import ViabtcServer.Network.Burst
import ViabtcServer.Network.Connection
import ViabtcServer.Network.Crc32
import ViabtcServer.Network.Datagram
import ViabtcServer.Network.Handoff
import ViabtcServer.Network.HandoffRuns
import ViabtcServer.Network.Heartbeat
import ViabtcServer.Network.Job
import ViabtcServer.Network.Rpc
import ViabtcServer.Network.RpcRoundTrip
import ViabtcServer.Network.Send
import ViabtcServer.Network.SendPacket
import ViabtcServer.Network.SendStream
import ViabtcServer.Network.Session
import ViabtcServer.Network.State
import ViabtcServer.Network.StateEntries
import ViabtcServer.Network.StateRuns
import ViabtcServer.Network.StateTable
import ViabtcServer.Network.Stream
import ViabtcServer.Routing.Router
import ViabtcServer.Sql.Client
import ViabtcServer.Sql.Insert
import ViabtcServer.Sql.Print
import ViabtcServer.WebSocket.Bounds
import ViabtcServer.WebSocket.Message
import ViabtcServer.WebSocket.Protocol
import ViabtcServer.WebSocket.Server
import ViabtcServer.Wire.Cast
import ViabtcServer.Wire.Pack
import ViabtcServer.Wire.Push
import ViabtcServer.Wire.Register
import ViabtcServer.Wire.Serial
import ViabtcServer.Wire.SignedPush
import ViabtcServer.Wire.Word
