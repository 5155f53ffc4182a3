import Rsylar.Foundations.Fallible
import Rsylar.Foundations.TransitionSystem
import Rsylar.Foundations.Election
import Rsylar.Foundations.ReplicatedLog
import Rsylar.Foundations.TextArchive
import Rsylar.Raft.Persister
import Rsylar.Raft.Server
import Rsylar.Raft.ServerSpec
import Rsylar.Raft.Archive
import Rsylar.Raft.NumberedLog
import Rsylar.Raft.Cluster
import Rsylar.Raft.ElectionSafety
import Rsylar.Raft.EntryIdentity
import Rsylar.Raft.Replication
import Rsylar.Raft.StateMachineSafety
import Rsylar.Raft.Durability
import Rsylar.Raft.IndexOrder
import Rsylar.Raft.CommitOrder
import Rsylar.Raft.LogShape
import Rsylar.Raft.FollowerProgress
import Rsylar.Raft.CommitRules
import Rsylar.Raft.ApplyStream
import Rsylar.Raft.QuorumCommit
import Rsylar.Kv.SkipList
import Rsylar.Kv.Server
import Rsylar.Kv.ServerSpec
import Rsylar.Kv.Archive
import Rsylar.Kv.ExactlyOnce
import Rsylar.Kv.ReplicaDeterminism
import Rsylar.Kv.Clerk
import Rsylar.Kv.Acknowledgement
import Rsylar.Kv.NoLostWrite
import Rsylar.Kv.SnapshotInstall
import Rsylar.Kv.AppliedPrefix
import Rsylar.Kv.ReferenceStore
import Rsylar.Kv.ReadLinearizability
import Rsylar.Kv.WaitChannel
import Rsylar.Rpc.Channel
import Rsylar.Sylar.IOManager
import Rsylar.Sylar.FdTable
import Rsylar.Sylar.EventBookkeeping
import Rsylar.Sylar.Hook
import Rsylar.Sylar.HookedWait
import Rsylar.Sylar.HookedTimeout
import Rsylar.Sylar.HookedClose
import Rsylar.Sylar.ContextSwitch
import Rsylar.Sylar.Scheduler
import Rsylar.Sylar.FiberView
import Rsylar.Sylar.FiberExclusion
import Rsylar.Sylar.FiberLive
import Rsylar.Sylar.SchedulerStop
import Rsylar.Rpc.PeerMutex
import Rsylar.Foundations.OrderedSet
import Rsylar.Sylar.Timer
import Rsylar.Sylar.TimerMembership
import Rsylar.Sylar.IdleLoop
import Rsylar.Sylar.TimerWakeup
import Rsylar.Sylar.ConfigVar
import Rsylar.Sylar.LogConfig
import Rsylar.Sylar.LogHistory
import Rsylar.Foundations.FlatBuffer
import Rsylar.Sylar.ByteArray
import Rsylar.Sylar.ByteArrayRefinement
import Rsylar.Sylar.ByteArrayCodec
import Rsylar.Sylar.ByteArrayString
import Rsylar.Http.RequestGrammar
import Rsylar.Sylar.SocketStream
import Rsylar.Http.MessageParser
import Rsylar.Http.Headers
import Rsylar.Http.Request
import Rsylar.Http.Session
import Rsylar.Http.RequestStream
import Rsylar.Raft.ReceiverRule
import Rsylar.Raft.StaleRequest
import Rsylar.Raft.SnapshotRules
import Rsylar.Raft.BackOff
import Rsylar.Raft.PersisterLaw
import Rsylar.Foundations.LinkedList
import Rsylar.Kv.SkipListTowers
import Rsylar.Kv.SkipListRefinement
import Rsylar.Kv.SkipListMap
import Rsylar.Raft.NextIndexBounds
import Rsylar.Sylar.AsyncLogger
import Rsylar.Sylar.LogDelivery
import Rsylar.Http.ScannedText
import Rsylar.Http.RequestElements
import Rsylar.Http.RequestRoundTrip
import Rsylar.Sylar.ByteArrayBuffers
import Rsylar.Sylar.ByteArrayFile
import Rsylar.Sylar.TypedReads
import Rsylar.Sylar.TimerExpiry
import Rsylar.Sylar.HookedSleep
import Rsylar.Sylar.FdManager
import Rsylar.Sylar.NonblockFlag
import Rsylar.Sylar.ThreadAffinity
import Rsylar.Sylar.UrlCodec
import Rsylar.Http.QueryParams
import Rsylar.Http.ContentLength
import Rsylar.Http.Response
import Rsylar.Http.DumpedLength
import Rsylar.Sylar.Subnet
import Rsylar.Sylar.LogPattern
import Rsylar.Sylar.Yaml
import Rsylar.Sylar.ConfigLoad
import Rsylar.Sylar.LogDefineCast
import Rsylar.Http.ConnectionPool
import Rsylar.Foundations.RegexResiduals
import Rsylar.Http.HeadInvariant
import Rsylar.Http.RequestLineStates
import Rsylar.Http.RequestLine
import Rsylar.Http.ResponseGrammar
import Rsylar.Http.Connection
import Rsylar.Http.ChunkStream
import Rsylar.Http.ResponseStream
import Rsylar.Sylar.IPv6Subnet
import Rsylar.Foundations.GroupText
import Rsylar.Sylar.IPv6Text
import Rsylar.Sylar.AddressLookup
import Rsylar.Sylar.JsonEscape
import Rsylar.Kv.SkipListLevels
import Rsylar.Foundations.RegexWords
import Rsylar.Http.ResponseElements
import Rsylar.Http.ResponseRoundTrip
import Rsylar.Foundations.LatestEntries
import Rsylar.Http.Servlet
import Rsylar.Sylar.SocketSink
import Rsylar.Http.Server
import Rsylar.Http.RequestArrival
import Rsylar.Http.Exchange
import Rsylar.Rpc.HttpCall
import Rsylar.Rpc.AnyClient
import Rsylar.Http.Cookies
