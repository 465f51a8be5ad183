import Mathlib.Algebra.BigOperators.Group.List.Basic
import Mathlib.Algebra.GroupWithZero.Nat
import Mathlib.Algebra.Ring.Int.Defs
import GlusterFS.Lib.Run

/-!
# Posix-locks: the lock list of an inode

The locks translator keeps, for each inode and each of two domains, one list of
locks.  Granted locks and requests that wait for their turn are in the same
list, told apart by `blocked`.  A granted request is merged with the locks that
its owner already has; then the waiting requests are gone through for those that
have become grantable.

Offsets are integers: they come from `off_t`, and the code adds or subtracts 1
only inside a larger range.  `__insert_and_merge` calls itself, on a sum of two
overlapping locks or on the pieces of one; its model has a fuel argument, and
`insertAndMerge` gives it the number of bytes that the locks span.
-/

namespace GlusterFS.Locks

open Run

inductive FlType where
  | rdlck
  | wrlck
  | unlck
deriving DecidableEq

abbrev Transport := Nat

abbrev Frame := Nat

def LLONG_MAX : Int := 2 ^ 63 - 1

structure Flock where
  lType : FlType
  lStart : Int
  lLen : Int
  lPid : Int

structure PosixLock where
  flType : FlType
  flStart : Int
  flEnd : Int
  blocked : Bool
  frame : Option Frame
  transport : Transport
  clientPid : Int
deriving DecidableEq

inductive LkDomain where
  | posix
  | internal
deriving DecidableEq

/-- The two lists of byte-range locks of an inode. -/
structure PlInode where
  extList : List PosixLock
  intList : List PosixLock

def posixLockToFlock (lock : PosixLock) : Flock where
  lPid := lock.clientPid
  lType := lock.flType
  lStart := lock.flStart
  lLen := if lock.flEnd = 0 then LLONG_MAX else lock.flEnd - lock.flStart + 1

def plInsertLock (ls : List PosixLock) (lock : PosixLock) : List PosixLock :=
  ls ++ [lock]

def locksOverlap (l1 l2 : PosixLock) : Bool :=
  l2.flStart ≤ l1.flEnd && l1.flStart ≤ l2.flEnd

def sameOwner (l1 l2 : PosixLock) : Bool :=
  l1.clientPid == l2.clientPid && l1.transport == l2.transport

def deleteUnlckLocks (ls : List PosixLock) : List PosixLock :=
  ls.filter (fun l => l.flType != .unlck)

/--
The sum of two locks, with the type and owner that the caller writes into the
cleared memory.
-/
def addLocks (l1 l2 : PosixLock) (of : PosixLock) : PosixLock where
  flType := of.flType
  flStart := min l1.flStart l2.flStart
  flEnd := max l1.flEnd l2.flEnd
  blocked := false
  frame := none
  transport := of.transport
  clientPid := of.clientPid

def subtractLocks (big small : PosixLock) : List PosixLock :=
  if big.flStart = small.flStart ∧ big.flEnd = small.flEnd then
    [{ big with flType := small.flType }]
  else if big.flStart < small.flStart ∧ small.flEnd < big.flEnd then
    [{ big with flEnd := small.flStart - 1 }, small, { big with flStart := small.flEnd + 1 }]
  else if small.flStart = big.flStart then
    [{ big with flStart := small.flEnd + 1 }, small]
  else if small.flEnd = big.flEnd then
    [{ big with flEnd := small.flStart - 1 }, small]
  else
    []

def firstOverlap (ls : List PosixLock) (lock : PosixLock) : Option PosixLock :=
  ls.find? (fun l => !l.blocked && locksOverlap l lock)

def plIsLockGrantable (ls : List PosixLock) (lock : PosixLock) : Bool :=
  ls.all (fun l =>
    !(!l.blocked && locksOverlap lock l && ((l.flType == .wrlck || lock.flType == .wrlck) &&
        lock.flType != .unlck && !sameOwner l lock)))

/--
The loop of `__insert_and_merge`: the first overlapping lock of the same owner,
and the list without it.  A read lock that meets another owner's read lock first
is inserted at once; the loop looks no further.
-/
def ownConflict (lock : PosixLock) :
    List PosixLock → Option (PosixLock × List PosixLock)
  | [] => none
  | conf :: ls =>
    if !locksOverlap conf lock then
      (ownConflict lock ls).map (fun r => (r.1, conf :: r.2))
    else if sameOwner conf lock then
      some (conf, ls)
    else if conf.flType = .rdlck ∧ lock.flType = .rdlck then
      none
    else
      (ownConflict lock ls).map (fun r => (r.1, conf :: r.2))

def insertAndMergeStep :
    Nat → List PosixLock → PosixLock → Option (List PosixLock)
  | 0, _, _ => none
  | fuel + 1, ls, lock =>
    match ownConflict lock ls with
    | none => some (if lock.flType = .unlck then ls else plInsertLock ls lock)
    | some (conf, rest) =>
      if conf.flType = lock.flType then
        insertAndMergeStep fuel rest (addLocks lock conf lock)
      else
        (run (fun ls v =>
            if v.flType = .unlck then some ls
            else insertAndMergeStep fuel ls v)
          rest
          (subtractLocks (addLocks lock conf conf) lock)).map deleteUnlckLocks

/--
The same with the `list` field of the lock that is inserted.  The field of a request is set up,
and those of sums and parts are not: `__delete_lock` then follows a pointer that is `NULL` or
leads into a lock that was freed, and nothing is defined.
-/
def insertAndMergeLinked :
    Nat → Bool → List PosixLock → PosixLock → Option (List PosixLock)
  | 0, _, _, _ => none
  | fuel + 1, linked, ls, lock =>
    match ownConflict lock ls with
    | none => some (if lock.flType = .unlck then ls else plInsertLock ls lock)
    | some (conf, rest) =>
      if conf.flType = lock.flType then
        insertAndMergeLinked fuel false rest (addLocks lock conf lock)
      else if linked then
        (run (fun ls v =>
            if v.flType = .unlck then some ls
            else insertAndMergeLinked fuel false ls v)
          rest
          (subtractLocks (addLocks lock conf conf) lock)).map deleteUnlckLocks
      else
        none

def PosixLock.span (l : PosixLock) : Nat :=
  max 1 (l.flEnd - l.flStart + 1).toNat

def totalSpan (ls : List PosixLock) : Nat :=
  (ls.map PosixLock.span).sum

def insertAndMerge (ls : List PosixLock) (lock : PosixLock) : Option (List PosixLock) :=
  insertAndMergeStep (totalSpan ls + lock.span + 1) ls lock

structure Granted where
  frame : Option Frame
  userFlock : Flock

def grantOne (s : List PosixLock × List Granted) (l : PosixLock) :
    Option (List PosixLock × List Granted) :=
  let l := { l with blocked := false }
  if plIsLockGrantable s.1 l then
    (insertAndMerge s.1 { l with frame := none }).map
      (fun ls => (ls, ⟨l.frame, posixLockToFlock l⟩ :: s.2))
  else
    some (plInsertLock s.1 { l with blocked := true }, s.2)

/--
The first loop takes out the waiting requests that no granted lock overlaps,
the second grants those of them that still can be.
-/
def grantBlockedLocks (ls : List PosixLock) : Option (List PosixLock × List Granted) :=
  let free := fun l : PosixLock => l.blocked && (firstOverlap ls l).isNone
  run grantOne (ls.filter (fun l => !free l), []) (ls.filter free)

/-- What `pl_setlk` returns, and the waiting calls it answers. -/
structure SetlkReply where
  ret : Int
  eagain : Bool
  granted : List Granted

def plSetlk (ls : List PosixLock) (lock : PosixLock) (canBlock : Bool) :
    Option (List PosixLock × SetlkReply) :=
  if plIsLockGrantable ls lock then
    (insertAndMerge ls lock).bind (fun ls =>
      (grantBlockedLocks ls).map (fun r => (r.1, ⟨0, false, r.2⟩)))
  else if canBlock then
    (grantBlockedLocks (plInsertLock ls { lock with blocked := true })).map
      (fun r => (r.1, ⟨-1, false, r.2⟩))
  else
    (grantBlockedLocks ls).map (fun r => (r.1, ⟨-1, true, r.2⟩))

def requestPhase (ls : List PosixLock) (lock : PosixLock) (canBlock : Bool) :
    Option (List PosixLock) :=
  if plIsLockGrantable ls lock then
    insertAndMerge ls lock
  else if canBlock then
    some (plInsertLock ls { lock with blocked := true })
  else
    some ls

theorem plSetlk_eq_phases (ls : List PosixLock) (lock : PosixLock) (canBlock : Bool) :
    plSetlk ls lock canBlock = (requestPhase ls lock canBlock).bind (fun mid =>
        (grantBlockedLocks mid).map (fun r =>
          (r.1,
            { ret := if plIsLockGrantable ls lock then 0 else -1
              eagain := !plIsLockGrantable ls lock && !canBlock
              granted := r.2 }))) := by
  unfold plSetlk requestPhase
  split_ifs with hgrant hblo
  · simp [hgrant]
  · simp [hblo]
  · simp [hgrant, hblo]

def deleteLocksOfOwner (transport : Transport) (pid : Int) (ls : List PosixLock) : List PosixLock :=
  ls.filter (fun l => !(l.transport == transport && l.clientPid == pid))

def flushList (transport : Transport) (pid : Int) (ls : List PosixLock) : Option (List PosixLock) :=
  (grantBlockedLocks (deleteLocksOfOwner transport pid ls)).map Prod.fst

/-- A request with a range that the callers let through. -/
structure LockRequest where
  flType : FlType
  flStart : Int
  flEnd : Int
  frame : Option Frame
  transport : Transport
  clientPid : Int
  nonneg : 0 ≤ flStart
  ordered : flStart ≤ flEnd

def LockRequest.toLock (req : LockRequest) : PosixLock where
  flType := req.flType
  flStart := req.flStart
  flEnd := req.flEnd
  blocked := false
  frame := req.frame
  transport := req.transport
  clientPid := req.clientPid

inductive LockCall where
  | setlk (dom : LkDomain) (req : LockRequest) (canBlock : Bool)
  | flush (transport : Transport) (pid : Int)

def PlInode.empty : PlInode where
  extList := []
  intList := []

def PlInode.domainHead (inode : PlInode) : LkDomain → List PosixLock
  | .posix => inode.extList
  | .internal => inode.intList

def PlInode.setDomain (inode : PlInode) (dom : LkDomain) (ls : List PosixLock) : PlInode :=
  match dom with
  | .posix => { inode with extList := ls }
  | .internal => { inode with intList := ls }

def lockStep (inode : PlInode) : LockCall → Option PlInode
  | .setlk dom req canBlock =>
    (plSetlk (inode.domainHead dom) req.toLock canBlock).map (fun r => inode.setDomain dom r.1)
  | .flush transport pid =>
    (flushList transport pid inode.extList).bind (fun extList =>
      (flushList transport pid inode.intList).map (fun intList =>
        ⟨extList, intList⟩))

end GlusterFS.Locks
