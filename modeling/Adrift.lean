import Adrift.Lib.Outcome
import Adrift.Lib.LinkPath
import Adrift.Lib.DoublyLinked
import Adrift.Lib.BigEndian
import Adrift.Lib.DomainName
import Adrift.Lib.DnsMessage
import Adrift.Lib.DnsEncoding
import Adrift.Util.Memory
import Adrift.Protocol.Codec
import Adrift.Protocol.Names
import Adrift.Ds.RecordList
import Adrift.Ds.ListInvariant
import Adrift.Ds.ListUpdate
import Adrift.Ds.ListPush
import Adrift.Ds.HashMap
import Adrift.Ds.Trie
import Adrift.Ds.HashMapRun
import Adrift.Ds.ListRun
import Adrift.Ds.ListTable
import Adrift.Ds.Discard
import Adrift.Ds.TrieRun
import Adrift.Ds.HashMapShrink
import Adrift.Ds.TrieShrink
import Adrift.Protocol.Cache
import Adrift.Protocol.CacheMap
import Adrift.Protocol.CacheInvariant
import Adrift.Hosts
import Adrift.Protocol.Handle
import Adrift.HostsLoad
import Adrift.Protocol.CacheRun
import Adrift.Protocol.Independence
import Adrift.Protocol.ReadCache
import Adrift.Protocol.ServerRun
import Adrift.Protocol.Blacklist
import Adrift.Protocol.CachedReply
import Adrift.Protocol.Learned
import Adrift.Protocol.Freshness
import Adrift.Protocol.ServedTtl
import Adrift.Protocol.Exempt
import Adrift.Protocol.Coherence
import Adrift.Protocol.Forward
import Adrift.Protocol.QueryRelay
import Adrift.Protocol.Echo
import Adrift.Protocol.Bounds
import Adrift.Protocol.ResponseRelay
import Adrift.Protocol.OwnerNames
import Adrift.Protocol.Messages
import Adrift.Protocol.Sizes
import Adrift.Lib.Transition
import Adrift.Protocol.Relay
import Adrift.Protocol.Outstanding
import Adrift.Protocol.RelayedOnce
import Adrift.Protocol.Tokens
import Adrift.Protocol.Replies
import Adrift.Protocol.Timely
import Adrift.Protocol.RoundTrip
import Adrift.Protocol.Rejected
import Adrift.Protocol.OwnLists
import Adrift.Protocol.Override
import Adrift.Lib.ExpiringLog
import Adrift.Teardown
import Adrift.HostsFormat
import Adrift.Protocol.CacheLog
import Adrift.Protocol.Served
import Adrift.Protocol.Transaction
import Adrift.Protocol.Answers
import Adrift.Protocol.Traffic
import Adrift.Lib.ConditionVariable
import Adrift.Lib.Census
import Adrift.Rwlock.RwLock
import Adrift.Rwlock.Preference
import Adrift.Rwlock.Progress
import Adrift.Lib.RingBuffer
import Adrift.Thread.ThreadPool
import Adrift.Thread.TaskQueue
import Adrift.Thread.Wakeups
import Adrift.Thread.Accounting
import Adrift.Thread.Adders
import Adrift.Thread.Destroy
