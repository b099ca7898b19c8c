import TradeBridge.Lib.Bytes
import TradeBridge.Lib.Interleaving
import TradeBridge.Lib.Threads
import TradeBridge.Lib.Json
import TradeBridge.Server
import TradeBridge.Marshaling
import TradeBridge.Nats
import TradeBridge.Decode
import TradeBridge.World
import TradeBridge.Task
import TradeBridge.Steps
import TradeBridge.ChartCursor
import TradeBridge.Messages
import TradeBridge.Progress
import TradeBridge.Passes
import TradeBridge.Agreement
import TradeBridge.Lib.Pool
import TradeBridge.Workers
import TradeBridge.Versions
import TradeBridge.TimePoints
import TradeBridge.Exceptions
import TradeBridge.Startup
import TradeBridge.Scheduling
import TradeBridge.Receiving
import TradeBridge.Members
import TradeBridge.Teardown
import TradeBridge.ChartRuns
import TradeBridge.Pausing
import TradeBridge.Requests
import TradeBridge.ChartSync
import TradeBridge.Prices
import TradeBridge.Once
import TradeBridge.TradeModes
import TradeBridge.Growth
import TradeBridge.EntryPoints
import TradeBridge.Lib.GoJson
import TradeBridge.Mock
import TradeBridge.TornPoints
import TradeBridge.Lib.Register
import TradeBridge.StoredPoints
import TradeBridge.Lib.GoTime
import TradeBridge.Timeframes
import TradeBridge.CandleStream
import TradeBridge.TradeAnswers
import TradeBridge.Lib.PropertyTree
import TradeBridge.IniArchive
import TradeBridge.Lib.Solo
import TradeBridge.Isolation
import TradeBridge.ChartPasses
import TradeBridge.TableRuns
import TradeBridge.Lib.NamedTable
import TradeBridge.Replica
import TradeBridge.Mirror
import TradeBridge.Crashes
import TradeBridge.Lib.Potential
import TradeBridge.Lib.PoolProgress
import TradeBridge.Drains
import TradeBridge.MockProcess
import TradeBridge.GracefulExit
import TradeBridge.Lib.Handles
import TradeBridge.NatsHandles
import TradeBridge.IniSerialize
import TradeBridge.TickStream
import TradeBridge.MockStreams
import TradeBridge.Lib.PoolClosing
import TradeBridge.Unloading
import TradeBridge.Serving
