import GlusterFS.Lib.Run
import GlusterFS.Paging.Pages

/-!
# io-cache: the pages of an inode

A read looks through its pages.  A page that is not there is created and faulted in, a page that
is on its way is waited for, and a page that is ready is used at once, unless the cache is old:
then the page waits in the queue of the inode until an `fstat` has told whether the file has
changed.  Pages without waiting frames are destroyed by a flush or when the cache is pruned.
Writes and truncates flush before they are wound, and writes flush again when they come back.

Each event is one section under the lock of the inode, with what the thread does after it until
it takes the lock again; the child serves a fault or a write in an event of its own.  The
modification time that a reply carries, and whether the cache is old when a read is called, are
of the events.

`versions` are the contents that the file has had, and `floor` is the number of the content at
the last successful answer to a write or truncate.  They are not in the code, nor are the numbers
of pages, which stand for their addresses, and `freed`, which says that a page was used after it
was freed.
-/

namespace GlusterFS.IoCache

open Iovec Blocks FlatFile Run Paging Function

section

structure FaultReply where
  opRet : Int
  opErrno : Nat
  vector : List (List Byte)
  mtime : Nat

/-- A page fault that was wound, with the reply once the child has served it. -/
structure Fault where
  offset : Nat
  reply : Option FaultReply

/-- A thread in `ioc_inode_wakeup`, before and after it took the queue of the inode. -/
inductive Wakeup where
  | called (stbuf : Option Nat)
  | waking (valid : Bool) (pages : List Nat)

def Wakeup.pages : Wakeup → List Nat
  | .called _ => []
  | .waking _ ids => ids

/-- A thread in `dispatch_requests`. -/
structure Dispatch where
  travOffset : Nat
  mightNeedValidate : Bool
  dispatching : Bool

inductive Change where
  | writev (data : List Byte) (offset : Nat)
  | truncate (offset : Nat)

def Change.apply : Change → List Byte → List Byte
  | .writev data offset, file => pwrite file offset data
  | .truncate offset, file => ftruncate file offset

def Change.isWritev : Change → Bool
  | .writev _ _ => true
  | .truncate _ => false

/-- A write or truncate that was wound, with whether it succeeded once it was served. -/
structure ChangeCall where
  change : Change
  reply : Option Bool

structure State where
  pageSize : Nat
  versions : List (List Byte)
  floor : Nat
  pages : List Page
  nextPage : Nat
  waitq : List Nat
  mtime : Nat
  board : Board
  dispatch : Nat → Dispatch
  faults : List Fault
  validates : Nat
  wakeups : List Wakeup
  changes : List ChangeCall
  freed : Bool

def start (pageSize : Nat) (file : List Byte) : State :=
  { pageSize := pageSize,
    versions := [file],
    floor := 0,
    pages := [],
    nextPage := 0,
    waitq := [],
    mtime := 0,
    board := Board.empty,
    dispatch := fun _ => { travOffset := 0, mightNeedValidate := false, dispatching := false },
    faults := [],
    validates := 0,
    wakeups := [],
    changes := [],
    freed := false }

variable (s : State)

def State.file : List Byte :=
  s.versions.getLastD []

def State.version : Nat :=
  s.versions.length - 1

def State.iocPageGet (offset : Nat) : Option Page :=
  s.pages.find? (fun p => p.offset == Blocks.floor offset s.pageSize)

def State.iocPageDestroy (id : Nat) : State :=
  if s.board.isWaitedOn id then
    s
  else
    { s with pages := s.pages.filter (fun p => !(p.id == id)) }

def State.iocInodeFlush : State :=
  { s with pages := s.pages.filter (fun p => s.board.isWaitedOn p.id) }

def State.setPage (page : Page) : State :=
  { s with pages := s.pages.map (fun p => if p.id = page.id then page else p) }

/-- `ioc_page_wakeup`, and `ioc_waitq_return` of the frames that waited on the page. -/
def State.iocPageWakeup (page : Page) : State :=
  { s.setPage { page with ready := true } with
    board := s.board.wakeup page.id page.vector }

/-- `ioc_page_error`, and `ioc_waitq_return` of the frames that waited on the page. -/
def State.iocPageError (page : Page) (opRet : Int) (opErrno : Nat) : State :=
  { s with
    pages := s.pages.filter (fun p => !(p.id == page.id)),
    board := s.board.fail page.id opRet opErrno }

def State.iocPageFault (offset : Nat) : State :=
  { s with faults := s.faults ++ [{ offset := offset, reply := none }] }

/-- A page that is ready waits in the queue of the inode; the first one sends the `fstat`. -/
def State.iocWaitOnInode (page : Page) : State :=
  { s with
    validates := if s.waitq = [] then s.validates + 1 else s.validates,
    waitq := if page.id ∈ s.waitq then s.waitq else page.id :: s.waitq }

def State.iocReadv (offset size : Nat) (mightNeedValidate : Bool) : State :=
  { s with
    board := s.board.enter offset size s.floor,
    dispatch := update s.dispatch s.board.count
      { travOffset := Blocks.floor offset s.pageSize,
        mightNeedValidate := mightNeedValidate,
        dispatching := true } }

/-- The frame waits on a page, for the part of it from `local_offset` with `trav_size` bytes. -/
def State.iocWaitOnPage (i travOffset : Nat) (page : Page) : State :=
  let fr := s.board.frame i
  let localOffset := max travOffset fr.offset
  { s with
    board := s.board.wait
      { page := page.id,
        pageOffset := page.offset,
        frame := i,
        offset := localOffset,
        size := min (fr.stop - localOffset) s.pageSize } }

def State.nextTrav (i : Nat) : State :=
  { s with
    dispatch := update s.dispatch i
      { s.dispatch i with travOffset := (s.dispatch i).travOffset + s.pageSize } }

def State.iocHit (i : Nat) (page : Page) : State :=
  if (s.dispatch i).mightNeedValidate then
    s.iocWaitOnInode page
  else
    s.iocPageWakeup page

def State.iocPageCreate (offset : Nat) : Page :=
  { id := s.nextPage,
    offset := Blocks.floor offset s.pageSize,
    ready := false,
    vector := none }

def State.dispatchPage (i travOffset : Nat) : State :=
  match s.iocPageGet travOffset with
  | none =>
    let page := s.iocPageCreate travOffset
    let s := { s with pages := s.pages ++ [page], nextPage := s.nextPage + 1 }
    (s.iocWaitOnPage i travOffset page).iocPageFault travOffset
  | some page =>
    if page.ready then
      (s.iocWaitOnPage i travOffset page).iocHit i page
    else
      s.iocWaitOnPage i travOffset page

/--
The thread goes on to its next page, or returns when it has been through all of them.  Its own
`trav_offset` is advanced first, which nobody else can see.
-/
def State.dispatchRequests (i : Nat) : State :=
  if (s.dispatch i).travOffset < roof (s.board.frame i).stop s.pageSize then
    (s.nextTrav i).dispatchPage i (s.dispatch i).travOffset
  else
    { s with
      board := s.board.frameReturn i,
      dispatch := update s.dispatch i { s.dispatch i with dispatching := false } }

/-- The flush of `ioc_fault_cbk`, and the modification time that it keeps. -/
def State.faultMtime (reply : FaultReply) : State :=
  let s' :=
    if reply.opRet = -1 ∨ (0 ≤ reply.opRet ∧ reply.mtime ≠ s.mtime) then
      s.iocInodeFlush
    else
      s
  if 0 ≤ reply.opRet then { s' with mtime := reply.mtime } else s'

/-- The page of a fault gets its data, and wakes the frames that wait on it, if any. -/
def State.faultPage (page : Page) (reply : FaultReply) : State :=
  let page := { page with vector := some reply.vector }
  if s.board.isWaitedOn page.id then
    (s.setPage page).iocPageWakeup page
  else
    s.setPage page

def State.iocFaultCbk (offset : Nat) (reply : FaultReply) : State :=
  let s := s.faultMtime reply
  match s.iocPageGet offset with
  | none => s
  | some page =>
    if reply.opRet < 0 then
      s.iocPageError page reply.opRet reply.opErrno
    else
      s.faultPage page reply

def State.iocCacheValidateCbk (stbuf : Option Nat) : State :=
  if stbuf = some s.mtime then
    { s with validates := s.validates - 1, wakeups := s.wakeups ++ [.called stbuf] }
  else
    { s.iocInodeFlush with
      mtime := stbuf.getD s.mtime,
      validates := s.validates - 1,
      wakeups := s.wakeups ++ [.called none] }

/-- The threads in `ioc_inode_wakeup` when one of them has these pages left. -/
def setWakeup (wakeups : List Wakeup) (k : Nat) (valid : Bool) : List Nat → List Wakeup
  | [] => wakeups.eraseIdx k
  | id :: ids => wakeups.set k (.waking valid (id :: ids))

def State.wakeupPage (valid : Bool) (id : Nat) : State :=
  match s.pages.find? (fun p => p.id == id) with
  | none => { s with freed := true }
  | some page =>
    if valid then
      s.iocPageWakeup page
    else if page.ready then
      (s.setPage { page with ready := false }).iocPageFault page.offset
    else
      s

inductive Event where
  | readv (offset size : Nat) (mightNeedValidate : Bool)
  | dispatch (frame : Nat)
  | serveFault (k : Nat) (vector : List (List Byte)) (mtime : Nat)
  | failFault (k : Nat) (opErrno : Nat)
  | faultCbk (k : Nat)
  | validateCbk (stbuf : Option Nat)
  | takeWaitq (k : Nat)
  | wakeup (k : Nat)
  | prune (id : Nat)
  | change (change : Change)
  | serveChange (k : Nat) (ok : Bool)
  | changeCbk (k : Nat)

/-- The reply to a read of a page: the bytes that the file has, in a vector of any shape. -/
def State.readReply (vector : List (List Byte)) (mtime offset : Nat) : Option FaultReply :=
  if vector.flatten = pread s.file offset s.pageSize then
    some { opRet := int32 (iovLength vector), opErrno := 0, vector := vector, mtime := mtime }
  else
    none

def errorReply (opErrno : Nat) : FaultReply :=
  { opRet := -1, opErrno := opErrno, vector := [], mtime := 0 }

def State.serve (k : Nat) (reply : Nat → Option FaultReply) : Option State :=
  match s.faults[k]? with
  | some ⟨offset, none⟩ =>
    (reply offset).map (fun r =>
      { s with faults := s.faults.set k { offset := offset, reply := some r } })
  | _ => none

/-- `ioc_writev_cbk` flushes, `ioc_truncate_cbk` does not. -/
def State.changeCbk (change : Change) (ok : Bool) : State :=
  let s := if change.isWritev then s.iocInodeFlush else s
  if ok then { s with floor := s.version } else s

def step : State → Event → Option State
  | s, .readv offset size mightNeedValidate => some (s.iocReadv offset size mightNeedValidate)
  | s, .dispatch i =>
    if i < s.board.count ∧ (s.dispatch i).dispatching then some (s.dispatchRequests i) else none
  | s, .serveFault k vector mtime => s.serve k (s.readReply vector mtime)
  | s, .failFault k opErrno => s.serve k (fun _ => some (errorReply opErrno))
  | s, .faultCbk k =>
    match s.faults[k]? with
    | some ⟨offset, some reply⟩ =>
      some ({ s with faults := s.faults.eraseIdx k }.iocFaultCbk offset reply)
    | _ => none
  | s, .validateCbk stbuf => if 0 < s.validates then some (s.iocCacheValidateCbk stbuf) else none
  | s, .takeWaitq k =>
    match s.wakeups[k]? with
    | some (.called stbuf) =>
      some { s with
        waitq := [],
        wakeups := setWakeup s.wakeups k (decide (stbuf = some s.mtime)) s.waitq }
    | _ => none
  | s, .wakeup k =>
    match s.wakeups[k]? with
    | some (.waking valid (id :: ids)) =>
      some ({ s with wakeups := setWakeup s.wakeups k valid ids }.wakeupPage valid id)
    | _ => none
  | s, .prune id => some (s.iocPageDestroy id)
  | s, .change change =>
    some { s.iocInodeFlush with changes := s.changes ++ [{ change := change, reply := none }] }
  | s, .serveChange k ok =>
    match s.changes[k]? with
    | some ⟨change, none⟩ =>
      some { s with
        versions := if ok then s.versions ++ [change.apply s.file] else s.versions,
        changes := s.changes.set k { change := change, reply := some ok } }
    | _ => none
  | s, .changeCbk k =>
    match s.changes[k]? with
    | some ⟨change, some ok⟩ =>
      some ({ s with changes := s.changes.eraseIdx k }.changeCbk change ok)
    | _ => none

/-- What the caller of a read gets: `ioc_frame_unwind` counts the bytes of the fills. -/
structure Answer where
  opRet : Int
  opErrno : Nat
  vector : List (List Byte)
deriving DecidableEq

def iocFrameUnwind (fr : Frame) : Answer :=
  { opRet := int32 (iovLength (fr.fills.flatMap Fill.vector)),
    opErrno := fr.opErrno,
    vector := fr.fills.flatMap Fill.vector }

end

end GlusterFS.IoCache
