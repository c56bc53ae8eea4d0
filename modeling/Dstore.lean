import Dstore.Client.CommandLine
import Dstore.Client.EndToEnd
import Dstore.Cluster.BackgroundWorker
import Dstore.Cluster.ChunkService
import Dstore.Cluster.Handoff
import Dstore.Cluster.HandoffRace
import Dstore.Cluster.HandoffThreads
import Dstore.Cluster.HintRoundTrip
import Dstore.Cluster.HintedHandoff
import Dstore.Cluster.NodeClient
import Dstore.Cluster.Placement
import Dstore.Cluster.PutThenRemove
import Dstore.Cluster.Quorum
import Dstore.Cluster.ReadCalls
import Dstore.Cluster.ReadVerification
import Dstore.Cluster.Rebalance
import Dstore.Cluster.RepairWorker
import Dstore.Cluster.ServiceSpec
import Dstore.Cluster.WriteCalls
import Dstore.Common.Auth
import Dstore.Common.LruCache
import Dstore.Common.LruHistory
import Dstore.Common.Metrics
import Dstore.Common.Result
import Dstore.Common.Sha256
import Dstore.Common.Sha256Standard
import Dstore.Common.Text
import Dstore.Common.ThreadPool
import Dstore.Durability.Replay
import Dstore.Durability.Wal
import Dstore.Lib.Blocks
import Dstore.Lib.Counting
import Dstore.Lib.Files
import Dstore.Lib.Fips180
import Dstore.Lib.Firsts
import Dstore.Lib.Inevitable
import Dstore.Lib.Lists
import Dstore.Lib.Loops
import Dstore.Lib.Refinement
import Dstore.Lib.Runs
import Dstore.Lib.Slices
import Dstore.Lib.SortedMap
import Dstore.Lib.UnorderedMap
import Dstore.Lib.Walks
import Dstore.Lib.Words
import Dstore.Metadata.Atomicity
import Dstore.Metadata.Connection
import Dstore.Metadata.Directory
import Dstore.Metadata.Linearizable
import Dstore.Metadata.MetadataStore
import Dstore.Network.Connections
import Dstore.Network.Exchange
import Dstore.Network.Http
import Dstore.Network.HttpServer
import Dstore.Network.Listening
import Dstore.Network.Requests
import Dstore.Network.Responses
import Dstore.Network.Wire
import Dstore.Raft.BackOff
import Dstore.Raft.Cluster
import Dstore.Raft.Commit
import Dstore.Raft.Completeness
import Dstore.Raft.Election
import Dstore.Raft.LateRequests
import Dstore.Raft.LogMatching
import Dstore.Raft.MatchIndex
import Dstore.Raft.Node
import Dstore.Raft.Recovery
import Dstore.Raft.WellFormed
import Dstore.Server.ChunkPaths
import Dstore.Server.ChunkRoutes
import Dstore.Server.Concurrency
import Dstore.Server.Config
import Dstore.Server.ConfigFile
import Dstore.Server.Isolation
import Dstore.Server.Leaks
import Dstore.Server.Liveness
import Dstore.Server.Monitoring
import Dstore.Server.ObjectEffects
import Dstore.Server.ObjectHistory
import Dstore.Server.ObjectRoutes
import Dstore.Server.ObjectSpec
import Dstore.Server.ObjectStore
import Dstore.Server.Operations
import Dstore.Server.Readers
import Dstore.Server.RefusedUploads
import Dstore.Server.RemoteCalls
import Dstore.Server.Routes
import Dstore.Server.SharedChunks
import Dstore.Server.SingleNode
import Dstore.Server.Startup
import Dstore.Server.WriteAhead
import Dstore.Storage.ChunkCache
import Dstore.Storage.ChunkStore
import Dstore.Storage.Chunking
import Dstore.Storage.ConsistentHash
import Dstore.Storage.Health
import Dstore.Storage.Replication
import Dstore.Storage.RingHealth
import Dstore.Storage.RingWalk
import Dstore.Storage.StoreRuns
import Dstore.Storage.StoreThreads
