import GlusterFS.Afr.Basic

/-!
# AFR: the changelog transaction

A fop that changes a file runs as a transaction: a pre-op that adds one to
every counter of the changelog on every child that is up, the fop itself, and
a post-op that takes one off again for every child that is thought to have
applied the fop.  Each of the three steps is a fan-out to the children that
`local->child_up` still names, and goes on when the last reply is in.

`afrTransaction` follows the callbacks from the end of the lock phase, which
hands over an arbitrary `child_up`, to the call of `afr_unlock`.  A `Script`
holds the replies of the three steps in order of arrival; a script that the
children cannot have sent has no run.
-/

namespace GlusterFS.Afr

open FanOut Function

variable {n : Nat}

/-- One for every child: the pre-op holds the fop against all of them. -/
def markAllPending : Fin n → Counter :=
  fun _ => 1

/-- The counter of a child that went down is left as it is. -/
def markChildDead (pending : Fin n → Counter) (child : Fin n) : Fin n → Counter :=
  update pending child 0

/-- The counters of all children that are down are left as they are. -/
def markDownChildren (pending : Fin n → Counter) (childUp : Fin n → Bool) : Fin n → Counter :=
  fun i => if childUp i then pending i else 0

def markAllSuccess : Fin n → Counter :=
  fun _ => -1

/--
The callback families of the fops.  Most of them report a child that went down;
those of setxattr and removexattr do not, and that of flush does not count the
successes either.
-/
inductive FopFamily where
  | reporting
  | silent
  | flush
deriving DecidableEq

/-- `frame->local` of a transaction, with the changelogs on the children. -/
structure Transaction (n : Nat) (Inode : Type) where
  type : AfrTransactionType
  op : AfrOp
  fop : FopFamily
  fd : Option Inode
  loc : Inode
  parentLoc : Inode
  newParentLoc : Inode
  childUp : Fin n → Bool
  pendingArray : Fin n → Counter
  callCount : Nat
  successCount : Nat
  opRet : Int
  opErrno : Option Errno
  lockedNodes : Fin n → Bool
  lockCount : Nat
  fdCtx : Bool
  pending : Inode → Fin n → Fin n → Counter

/-- The replies of the three steps, each list in order of arrival. -/
structure Script (n : Nat) (Inode : Type) where
  pre : List ((Fin n × Inode) × Reply)
  fop : List (Fin n × Reply)
  post : List ((Fin n × Inode) × Reply)

namespace Transaction

section

variable {Inode : Type} [DecidableEq Inode]

/-- `AFR_LOCAL_INIT` and `afr_transaction_local_init` on a fresh frame. -/
def afrLocalInit (type : AfrTransactionType) (op : AfrOp) (fop : FopFamily)
    (fd : Option Inode) (loc parentLoc newParentLoc : Inode)
    (childUp : Fin n → Bool) (fdCtx : Bool)
    (pending : Inode → Fin n → Fin n → Counter) :
    Transaction n Inode where
  type := type
  op := op
  fop := fop
  fd := fd
  loc := loc
  parentLoc := parentLoc
  newParentLoc := newParentLoc
  childUp := childUp
  pendingArray := fun _ => 0
  callCount := afrUpChildrenCount childUp
  successCount := 0
  opRet := -1
  opErrno := some .EUCLEAN
  lockedNodes := fun _ => false
  lockCount := 0
  fdCtx := fdCtx
  pending := pending

/-- The test leaves its mark: it is true at most once for an fd. -/
def isFirstWriteOnFd (t : Transaction n Inode) : Bool × Transaction n Inode :=
  if t.fdCtx then
    (false, t)
  else
    (true, { t with fdCtx := true })

variable (priv : AfrPrivate n)

def changelogEnabled : AfrTransactionType → Bool
  | .data => priv.dataChangeLog
  | .metadata => priv.metadataChangeLog
  | .entry => priv.entryChangeLog
  | .entryRename => priv.entryChangeLog
  | .flush => true

/-- Writes on a descriptor are logged once, by the first of them. -/
def changelogNeededPreOp (t : Transaction n Inode) : Bool × Transaction n Inode :=
  if changelogEnabled priv t.type then
    match t.op with
    | .write | .ftruncate =>
      if t.fd.isNone then
        (true, t)
      else
        isFirstWriteOnFd t
    | .flush => (false, t)
    | .other => (true, t)
  else
    (false, t)

/-- What the writes have logged is taken off by the flush. -/
def changelogNeededPostOp (t : Transaction n Inode) : Bool :=
  changelogEnabled priv t.type && t.op != .write && t.op != .ftruncate

/-- The inodes whose changelog the transaction updates, in winding order. -/
def xattropInodes (t : Transaction n Inode) : List Inode :=
  match t.type with
  | .data | .metadata | .flush => [t.fd.getD t.loc]
  | .entryRename => [t.newParentLoc, t.fd.getD t.parentLoc]
  | .entry => [t.fd.getD t.parentLoc]

/-- A rename updates the changelogs of two directories. -/
def xattropCallCount (t : Transaction n Inode) : Nat :=
  if t.type = .entryRename then
    afrUpChildrenCount t.childUp * 2
  else
    afrUpChildrenCount t.childUp

/-- The calls in winding order, until the count is used up. -/
def xattropCalls (t : Transaction n Inode) : List (Fin n × Inode) :=
  windLoop (fun i =>
      if t.childUp i then
        t.xattropInodes.map (fun inode => (i, inode))
      else
        [])
    t.callCount (List.finRange n)

/-- A child adds the array to its changelog of the inode. -/
def addArray (pending : Inode → Fin n → Fin n → Counter)
    (inode : Inode) (child : Fin n) (delta : Fin n → Counter) : Inode → Fin n → Fin n → Counter :=
  fun inode' child' j =>
    if inode' = inode ∧ child' = child then
      pending inode' child' j + delta j
    else
      pending inode' child' j

/-- A child that replies with success has changed its changelog before. -/
def xattropReply (cbk : Transaction n Inode → Fin n → Reply → Transaction n Inode)
    (delta : Fin n → Counter)
    (t : Transaction n Inode) (call : Fin n × Inode) :
    Reply → Transaction n Inode
  | .ok => cbk { t with pending := addArray t.pending call.2 call.1 delta } call.1 .ok
  | .err opErrno => cbk t call.1 (.err opErrno)

def afrChangelogPostOpCbk (t : Transaction n Inode) (_childIndex : Fin n) (_r : Reply) :
    Transaction n Inode :=
  { t with callCount := t.callCount - 1 }

/-- Takes one off for each child that is up, whatever it replied to the fop. -/
def afrChangelogPostOp (t : Transaction n Inode) (sc : Script n Inode) :
    Option (Transaction n Inode) :=
  let t : Transaction n Inode :=
    { t with
      pendingArray := markDownChildren markAllSuccess t.childUp
      callCount := t.xattropCallCount }
  if t.callCount = 0 then
    if sc.post = [] then some t else none
  else if Answers sc.post t.xattropCalls then
    some (gather (xattropReply afrChangelogPostOpCbk t.pendingArray) t sc.post)
  else
    none

def afrTransactionResume (t : Transaction n Inode) (sc : Script n Inode) :
    Option (Transaction n Inode) :=
  if changelogNeededPostOp priv t then
    afrChangelogPostOp t sc
  else if sc.post = [] then
    some t
  else
    none

def afrTransactionChildDied (t : Transaction n Inode) (childIndex : Fin n) : Transaction n Inode :=
  { t with pendingArray := markChildDead t.pendingArray childIndex }

/-- The first success gives `op_ret`, and the last reply `op_errno`. -/
def afrFopWindCbk (t : Transaction n Inode) (childIndex : Fin n) (r : Reply) :
    Transaction n Inode :=
  let t :=
    if t.fop = .reporting ∧ childWentDown r = true then
      afrTransactionChildDied t childIndex
    else
      t
  match r with
  | .ok =>
    { t with
      opRet := if t.successCount = 0 then 0 else t.opRet
      successCount :=
        if t.fop = .flush then t.successCount else t.successCount + 1
      opErrno := none
      callCount := t.callCount - 1 }
  | .err opErrno =>
    { t with
      opErrno := some opErrno
      callCount := t.callCount - 1 }

def fopCalls (t : Transaction n Inode) : List (Fin n) :=
  windLoop (fun i => if t.childUp i then [i] else []) t.callCount (List.finRange n)

/-- Without a child that is up the fop is left out. -/
def afrFopWind (t : Transaction n Inode) (sc : Script n Inode) : Option (Transaction n Inode) :=
  let callCount := afrUpChildrenCount t.childUp
  if callCount = 0 then
    if sc.fop = [] then afrTransactionResume priv t sc else none
  else
    let t : Transaction n Inode := { t with callCount := callCount }
    if Answers sc.fop t.fopCalls then
      afrTransactionResume priv (gather afrFopWindCbk t sc.fop) sc
    else
      none

/-- A child that fails takes no further part. -/
def afrChangelogPreOpCbk (t : Transaction n Inode) (childIndex : Fin n) :
    Reply → Transaction n Inode
  | .ok => { t with callCount := t.callCount - 1 }
  | .err opErrno =>
    { t with
      childUp := update t.childUp childIndex false
      opRet := if opErrno = .ENOTSUP then -1 else t.opRet
      opErrno := some opErrno
      callCount := t.callCount - 1 }

def preOpWound (t : Transaction n Inode) : Transaction n Inode :=
  { t with
    callCount := t.xattropCallCount
    pendingArray := markAllPending }

def preOpAnswered (t : Transaction n Inode) (pre : List ((Fin n × Inode) × Reply)) :
    Transaction n Inode :=
  gather (xattropReply afrChangelogPreOpCbk t.preOpWound.pendingArray) t.preOpWound pre

/-- The fop is left out if the last child that failed has no changelogs (ENOTSUP). -/
def afrChangelogPreOp (t : Transaction n Inode) (sc : Script n Inode) :
    Option (Transaction n Inode) :=
  if t.xattropCallCount = 0 then
    if sc.pre = [] ∧ sc.fop = [] ∧ sc.post = [] then some t else none
  else if Answers sc.pre t.preOpWound.xattropCalls then
    let t := t.preOpAnswered sc.pre
    if t.opRet = -1 ∧ t.opErrno = some .ENOTSUP then
      if sc.fop = [] then afrTransactionResume priv t sc else none
    else
      afrFopWind priv t sc
  else
    none

/-- From the end of the lock phase to the call of `afr_unlock`. -/
def afrTransaction (t : Transaction n Inode) (sc : Script n Inode) : Option (Transaction n Inode) :=
  match changelogNeededPreOp priv t with
  | (true, t) => afrChangelogPreOp priv t sc
  | (false, t) => if sc.pre = [] then afrFopWind priv t sc else none

end

end Transaction

end GlusterFS.Afr
