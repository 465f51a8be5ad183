import GlusterFS.Locks.EntrylkExclusion
import GlusterFS.Locks.EntrylkTransport
import GlusterFS.Locks.Inodelk

/-!
# Posix-locks: the locks of a client that is gone

When a client disconnects, the server sends an `inodelk` and an `entrylk` call with the pid 0
for the inodes it has locks on.  The second one takes the entry locks of the client out of the
list and tries the requests that waited for them again.  The first one does not come near the
internal locks: `delete_locks_of_transport` walks the list of the entry locks.
-/

namespace GlusterFS.Locks

open List

variable {d : Cells EntryLock} {trans : Transport} {addrs : List Nat} {g : Grants}
  {req : BlockedLock} {r : Cells EntryLock × LockNameRet}

section

variable (h : WritesHeld g.dir.cells) (hflt : g.fault = false)
include h hflt

end

end GlusterFS.Locks
