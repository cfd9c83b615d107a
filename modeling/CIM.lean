import CIM.Api.QueryKV
import CIM.Api.WsGateway
import CIM.App.Accounts
import CIM.App.AuthService
import CIM.Config.ConfigVar
import CIM.Config.FromString
import CIM.Config.LoadFromYaml
import CIM.Config.LogDefineText
import CIM.Db.MySQLManager
import CIM.Db.MySQLTransaction
import CIM.Ds.Array
import CIM.Ds.Bitmap
import CIM.Ds.BitmapBits
import CIM.Ds.BitmapCount
import CIM.Ds.BitmapIterators
import CIM.Ds.BitmapMixed
import CIM.Ds.BitmapPredicates
import CIM.Ds.BitmapResize
import CIM.Ds.BitmapRoundTrip
import CIM.Ds.BitmapRuns
import CIM.Ds.BitmapStream
import CIM.Ds.BitmapTraversal
import CIM.Ds.BitmapTraverse
import CIM.Ds.Dict
import CIM.Ds.DictRuns
import CIM.Ds.HashForeach
import CIM.Ds.HashLruCache
import CIM.Ds.HashMap
import CIM.Ds.HashMapBuckets
import CIM.Ds.HashMapClear
import CIM.Ds.HashMapRuns
import CIM.Ds.HashMultimap
import CIM.Ds.HashMultimapRuns
import CIM.Ds.LruCache
import CIM.Ds.LruCacheRuns
import CIM.Ds.MultimapValues
import CIM.Ds.Persistence
import CIM.Ds.PersistenceLife
import CIM.Ds.PersistenceRuns
import CIM.Ds.PersistentContainers
import CIM.Ds.Pool
import CIM.Ds.Pooled
import CIM.Ds.PooledCalls
import CIM.Ds.PooledMultimap
import CIM.Ds.ReadFrom
import CIM.Ds.TimedCache
import CIM.Ds.TimedCacheExpired
import CIM.Ds.TimedCacheRuns
import CIM.Ds.TimedLruCache
import CIM.Ds.TimedLruCacheRuns
import CIM.Ds.WriteTo
import CIM.Http.HttpChunks
import CIM.Http.HttpConnection
import CIM.Http.HttpConnectionPool
import CIM.Http.HttpConnectionPoolRuns
import CIM.Http.HttpParser
import CIM.Http.HttpReceive
import CIM.Http.HttpRequests
import CIM.Http.HttpServer
import CIM.Http.HttpText
import CIM.Http.ServletDispatch
import CIM.Http.Uri
import CIM.Http.UriComponents
import CIM.Http.UriString
import CIM.Http.WsEmpty
import CIM.Http.WsFrame
import CIM.Http.WsMessage
import CIM.Http.WsPasses
import CIM.Http.WsRoundTrip
import CIM.Http.WsSession
import CIM.Io.FdTable
import CIM.Io.IOManager
import CIM.Io.IOManagerRuns
import CIM.Io.IdleTimeout
import CIM.Io.Lock
import CIM.Io.Scheduler
import CIM.Io.SchedulerDrain
import CIM.Io.SchedulerRuns
import CIM.Io.SchedulerTurns
import CIM.Io.SemaphoreRuns
import CIM.Io.TaskWakeUps
import CIM.Io.ThreadPool
import CIM.Io.ThreadPoolExit
import CIM.Io.ThreadPoolRuns
import CIM.Io.ThreadPoolStart
import CIM.Io.Timer
import CIM.Io.TimerRuns
import CIM.Io.TimerWakeUps
import CIM.Io.WaiterRuns
import CIM.Io.WakeUp
import CIM.Io.WakeUpRuns
import CIM.Io.WorkerGroup
import CIM.Lib.Delta
import CIM.Lib.Entries
import CIM.Lib.Exec
import CIM.Lib.NodeIndex
import CIM.Lib.Patch
import CIM.Lib.Place
import CIM.Lib.Ragel
import CIM.Lib.Scanner
import CIM.Lib.Selection
import CIM.Lib.SortedArray
import CIM.Lib.SortedSet
import CIM.Lib.System
import CIM.Lib.Traversal
import CIM.Log.LogConfig
import CIM.Log.LogConfigRuns
import CIM.Log.LogFormatter
import CIM.Log.LogRotation
import CIM.Log.PathParts
import CIM.Net.Address
import CIM.Net.ByteArray
import CIM.Net.ByteArrayCodec
import CIM.Net.ByteArrayFile
import CIM.Net.ByteArrayFlat
import CIM.Net.ByteArrayRoundTrip
import CIM.Net.ByteArrayRuns
import CIM.Net.ByteArrayString16
import CIM.Net.ByteArrayValues
import CIM.Net.ByteArrayVarint
import CIM.Net.ByteArrayViews
import CIM.Net.Endian
import CIM.Net.FixSize
import CIM.Net.HookMode
import CIM.Net.HookTime
import CIM.Net.IPv6Masks
import CIM.Net.IPv6Text
import CIM.Net.Lookup
import CIM.Net.SocketStream
import CIM.Net.Stream
import CIM.Ns.ConcurrentSet
import CIM.Ns.ConcurrentSetRuns
import CIM.Ns.NameServer
import CIM.Ns.NameServerRuns
import CIM.Ns.NodeIdentity
import CIM.Ns.NsClient
import CIM.Ns.NsProtocol
import CIM.Ns.RegistrationDiff
import CIM.Other.MemoryPool
import CIM.Other.MemoryPoolRuns
import CIM.Other.ModuleManager
import CIM.Rock.RequestContext
import CIM.Rock.RequestRuns
import CIM.Rock.RockProtocol
import CIM.Rock.RockRoundTrip
import CIM.Rock.RockStream
import CIM.Streams.AsyncExactlyOnce
import CIM.Streams.AsyncSendQueue
import CIM.Streams.AsyncSocketStream
import CIM.Streams.DisconnectRuns
import CIM.Streams.HolderStats
import CIM.Streams.LoadBalance
import CIM.Streams.LoadBalanceGet
import CIM.Streams.LoadBalanceRuns
import CIM.Streams.PermitRuns
import CIM.Streams.StatsRing
import CIM.Streams.StreamLoops
import CIM.Streams.WeightLoadBalance
import CIM.Streams.ZlibIntegrity
import CIM.Streams.ZlibStream
import CIM.System.Env
import CIM.Util.Base64
import CIM.Util.HexString
import CIM.Util.JsonEscape
import CIM.Util.JsonYaml
import CIM.Util.Password
import CIM.Util.Strings
import CIM.Util.Trim
import CIM.Util.UrlCoding
import CIM.Util.Yaml
