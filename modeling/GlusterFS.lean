import GlusterFS.Filter.Fops
import GlusterFS.Libglusterfs.MemPool
import GlusterFS.Afr.TransactionAccounting
import GlusterFS.Afr.Lock
import GlusterFS.Afr.FdChangelog
import GlusterFS.Afr.SourceSoundness
import GlusterFS.Afr.SelfHealDataPending
import GlusterFS.Afr.SelfHealEntryConverge
import GlusterFS.Afr.Lookup
import GlusterFS.Afr.InodeRead
import GlusterFS.Afr.Lk
import GlusterFS.Locks.Mandatory
import GlusterFS.Locks.EntrylkReaders
import GlusterFS.Locks.Disconnect
import GlusterFS.Dht.SelfhealDivisor
import GlusterFS.Dht.LayoutSort
import GlusterFS.Dht.Search
import GlusterFS.Dht.Readdir
import GlusterFS.WriteBehind.Offsets
import GlusterFS.WriteBehind.Answers
import GlusterFS.WriteBehind.Errors
import GlusterFS.Stripe.Reads
import GlusterFS.Stripe.Replies
import GlusterFS.SymlinkCache.Readlink
import GlusterFS.IoCache.Coherence
import GlusterFS.ReadAhead.Reads
import GlusterFS.Posix.Xattrop
import GlusterFS.Libglusterfs.Ctx
import GlusterFS.Libglusterfs.FdTable
import GlusterFS.Dict.Numbers
import GlusterFS.Dict.Wire
import GlusterFS.Libglusterfs.Dirent
import GlusterFS.Dht.LookupDir
import GlusterFS.Dht.RenameLeftover
import GlusterFS.Server.Lockers
import GlusterFS.Auth.Authenticate
import GlusterFS.Quota.Usage
import GlusterFS.Client.SavedFrames
import GlusterFS.Unify.Create
import GlusterFS.Unify.SelfHeal
import GlusterFS.Unify.Volume
import GlusterFS.Transport.Socket
import GlusterFS.Scheduler.RoundRobin
import GlusterFS.Ha.FailOver
import GlusterFS.Map.Routing
import GlusterFS.Libglusterfs.InodeTable
import GlusterFS.Client.Forgets
import GlusterFS.Libglusterfs.Timer
