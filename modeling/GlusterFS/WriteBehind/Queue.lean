import Mathlib.Algebra.GroupWithZero.Nat
import Mathlib.Algebra.Ring.Int.Defs
import Mathlib.Data.List.Nodup
import Mathlib.Algebra.Order.BigOperators.Group.List
import Mathlib.Algebra.Order.Group.Nat
import GlusterFS.Lib.Run

/-!
# write-behind: the queue of a file

A write is queued and answered before it is written.  `wb_process_queue` drops the requests
that are finished, marks the queued requests that are to be written (all of them, when nothing
is on its way or enough has come together), and marks the first requests that are to be
answered, as far as the window goes; then it answers them, and `wb_sync` glues the requests
that are to be written into writes to the child.

The calls and the callbacks run at the same time.  Each event below is one section that holds
the lock of the file, with what the thread does after it; `wb_writev` is the check of the
offset, the flush of the queue if the offset was not the one expected, the queueing of the
request, and the processing of the queue.
-/

namespace GlusterFS.WriteBehind

open Run List Function

abbrev Byte := UInt8

/-- What a request is to write; `frame` is the call that it belongs to. -/
structure WriteData where
  frame : Nat
  offset : Nat
  vector : List (List Byte)

structure WriteRequest extends WriteData where
  writeBehind : Bool
  stackWound : Bool
  gotReply : Bool

def iovLength (vector : List (List Byte)) : Nat :=
  (vector.map length).sum

def WriteData.count (x : WriteData) : Nat :=
  x.vector.length

def WriteData.size (x : WriteData) : Nat :=
  iovLength x.vector

def maxVectorCount : Nat := 8

def wbCleanupQueue (queue : List WriteRequest) : List WriteRequest :=
  queue.filter (fun r => !(r.gotReply && r.writeBehind))

def unmarked (queue : List WriteRequest) : List WriteData :=
  (queue.filter (fun r => !r.stackWound)).map WriteRequest.toWriteData

def wbMarkWindAll (queue : List WriteRequest) : List WriteRequest × List WriteData :=
  (queue.map (fun r => { r with stackWound := true }), unmarked queue)

def wbGetAggregateSize (queue : List WriteRequest) : Nat :=
  ((unmarked queue).map WriteData.size).sum

def wbGetIncompleteWrites (queue : List WriteRequest) : Nat :=
  (queue.filter (fun r => r.stackWound && !r.gotReply)).length

def wbMarkWinds (queue : List WriteRequest) (aggregateConf : Nat) :
    List WriteRequest × List WriteData :=
  if wbGetIncompleteWrites queue = 0 ∨ aggregateConf ≤ wbGetAggregateSize queue then
    wbMarkWindAll queue
  else
    (queue, [])

def wbGetWindowSize (queue : List WriteRequest) : Nat :=
  ((queue.filter (fun r => r.writeBehind && !r.gotReply)).map (fun r => r.toWriteData.size)).sum

/-- Requests are marked to be answered until more than `size` bytes are. -/
def wbMarkUnwindTill (size : Nat) : List WriteRequest → Nat → List WriteRequest × List Nat
  | [], _ => ([], [])
  | r :: rest, writtenBehind =>
    if writtenBehind ≤ size then
      if r.writeBehind then
        let (rest', unwinds) := wbMarkUnwindTill size rest writtenBehind
        (r :: rest', unwinds)
      else
        let (rest', unwinds) := wbMarkUnwindTill size rest (writtenBehind + r.toWriteData.size)
        ({ r with writeBehind := true } :: rest', r.frame :: unwinds)
    else
      (r :: rest, [])

def wbMarkUnwinds (queue : List WriteRequest) (windowConf : Nat) : List WriteRequest × List Nat :=
  if wbGetWindowSize queue ≤ windowConf then
    wbMarkUnwindTill (windowConf - wbGetWindowSize queue) queue 0
  else
    (queue, [])

/-- The requests of each write to the child: as many as fit into one vector. -/
def glue : List WriteData → List WriteData → List (List WriteData)
  | _, [] => []
  | glued, [x] => [glued ++ [x]]
  | glued, x :: next :: rest =>
    if maxVectorCount < ((glued ++ [x]).map WriteData.count).sum + next.count then
      (glued ++ [x]) :: glue [] (next :: rest)
    else
      glue (glued ++ [x]) (next :: rest)

def wbSync (winds : List WriteData) : List (List WriteData) :=
  if (winds.map WriteData.count).sum = 0 then
    []
  else
    glue [] winds

/-- The vector that `wb_sync` allocates is too short for one of the requests. -/
def Overruns (winds : List WriteData) : Prop :=
  ∃ x ∈ winds, maxVectorCount < x.count
deriving Decidable

structure Conf where
  aggregateSize : Nat
  windowSize : Nat

structure WbFile where
  disabled : Bool
  disableTill : Nat
  offset : Nat
  opRet : Int
  opErrno : Int
  request : List WriteRequest

inductive CallPhase where
  | flush
  | enqueue
  | process
  | returned
deriving DecidableEq

/-- A call, with the answer that its `local` holds. -/
structure Call where
  offset : Nat
  vector : List (List Byte)
  phase : CallPhase
  opRet : Int
  opErrno : Int

structure Reply where
  opRet : Int
  opErrno : Int
deriving DecidableEq

inductive WriteStatus where
  | wound
  | replied (reply : Reply)
  | stored (reply : Reply)
  | done (reply : Reply)
deriving DecidableEq

/-- A write of `wb_sync`, at the offset of its first request. -/
structure ChildWrite where
  requests : List WriteData
  status : WriteStatus

def ChildWrite.offset (w : ChildWrite) : Nat :=
  (w.requests.head?.map WriteData.offset).getD 0

def ChildWrite.vector (w : ChildWrite) : List (List Byte) :=
  w.requests.flatMap WriteData.vector

structure DirectWrite where
  frame : Nat
  reply : Option Reply

inductive SyncKind where
  | fsync
  | flush

/-- A `wb_fsync` or `wb_flush`, before and after its callback. -/
inductive SyncCall where
  | wound (kind : SyncKind)
  | answered (reply : Reply)

structure Answer where
  frame : Nat
  opRet : Int
  opErrno : Int

/-- `accepted` are the requests that were queued, in their order. -/
structure State where
  file : WbFile
  calls : List Call
  accepted : List WriteData
  writes : List ChildWrite
  directs : List DirectWrite
  unwound : List Answer
  sync : Option SyncCall
  overrun : Bool

def answerOf (s : State) (frame : Nat) : Answer where
  frame := frame
  opRet := ((s.calls[frame]?).map Call.opRet).getD 0
  opErrno := ((s.calls[frame]?).map Call.opErrno).getD 0

def wbDoOps (s : State) (queue : List WriteRequest) (winds : List WriteData)
    (unwinds : List Nat) : State :=
  { s with
    file := { s.file with request := queue }
    unwound := s.unwound ++ unwinds.map (answerOf s)
    writes := s.writes ++ (wbSync winds).map (fun requests => ⟨requests, .wound⟩)
    overrun := s.overrun || decide (Overruns winds) }

def wbProcessQueue (conf : Conf) (flushAll : Bool) (s : State) : State :=
  let queue := wbCleanupQueue s.file.request
  let (queue, winds) := wbMarkWinds queue (if flushAll then 0 else conf.aggregateSize)
  let (queue, unwinds) := wbMarkUnwinds queue conf.windowSize
  wbDoOps s queue winds unwinds

def wbSyncAll (s : State) : State :=
  let (queue, winds) := wbMarkWinds s.file.request 0
  wbDoOps s queue winds []

def setPhase (s : State) (frame : Nat) (phase : CallPhase) : State :=
  { s with calls := s.calls.modify frame (fun c => { c with phase := phase }) }

/-- The check of `wb_writev`: a write of a disabled file goes straight to the child. -/
def wbWritev (s : State) (offset : Nat) (vector : List (List Byte)) : State :=
  if s.file.disabled ∨ s.file.disableTill ≠ 0 then
    { s with
      file :=
        { s.file with
          disableTill :=
            if s.file.disableTill < iovLength vector then
              0
            else
              s.file.disableTill - iovLength vector }
      calls := s.calls ++ [⟨offset, vector, .returned, 0, 0⟩]
      directs := s.directs ++ [⟨s.calls.length, none⟩] }
  else
    { s with
      calls := s.calls ++
        [⟨offset, vector, if s.file.offset = offset then .enqueue else .flush, 0, 0⟩] }

def wbEnqueue (s : State) (frame : Nat) (c : Call) : State :=
  let x : WriteData := ⟨frame, c.offset, c.vector⟩
  { s with
    file :=
      { s.file with
        request := s.file.request ++ [⟨x, false, false, false⟩]
        offset := c.offset + iovLength c.vector }
    accepted := s.accepted ++ [x]
    calls := s.calls.modify frame
      (fun c => { c with phase := .process, opRet := iovLength c.vector, opErrno := 0 }) }

/-- The requests of a failed write that are not answered yet will be answered with the failure. -/
def markFailed (queue : List WriteRequest) (frames : List Nat) (reply : Reply)
    (calls : List Call) : List Call :=
  calls.mapIdx (fun i c =>
    if reply.opRet = -1 ∧ ∃ r ∈ queue, r.frame = i ∧ i ∈ frames ∧ r.writeBehind = false then
      { c with opRet := reply.opRet, opErrno := reply.opErrno }
    else
      c)

def wbSyncCbk (s : State) (i : Nat) (w : ChildWrite) (reply : Reply) : State :=
  let frames := w.requests.map WriteData.frame
  { s with
    file :=
      { s.file with
        request := s.file.request.map
          (fun r => if r.frame ∈ frames then { r with gotReply := true } else r) }
    calls := markFailed s.file.request frames reply s.calls
    writes := s.writes.set i { w with status := .replied reply } }

def storeError (s : State) (i : Nat) (w : ChildWrite) (reply : Reply) : State :=
  { s with
    file :=
      if reply.opRet = -1 then
        { s.file with opRet := reply.opRet, opErrno := reply.opErrno }
      else
        s.file
    writes := s.writes.set i { w with status := .stored reply } }

/-- What the callbacks of `wb_fsync` and `wb_flush` have in common. -/
def syncCbk (s : State) (reply : Reply) : State :=
  if s.file.opRet = -1 then
    { s with
      file := { s.file with opRet := 0 }
      sync := some (.answered ⟨s.file.opRet, s.file.opErrno⟩) }
  else
    { s with sync := some (.answered reply) }

def wbFsyncCbk (s : State) (reply : Reply) : State :=
  syncCbk s reply

def wbFfrCbk (s : State) (reply : Reply) : State :=
  syncCbk s reply

def SyncKind.cbk : SyncKind → State → Reply → State
  | .fsync => wbFsyncCbk
  | .flush => wbFfrCbk

/-- A child fails, or writes no more than it was given. -/
def Reply.Possible (reply : Reply) (size : Nat) : Prop :=
  reply.opRet = -1 ∨ (0 ≤ reply.opRet ∧ reply.opRet ≤ size)
deriving Decidable

inductive Event where
  | writev (offset : Nat) (vector : List (List Byte))
  | flush (frame : Nat)
  | enqueue (frame : Nat)
  | process (frame : Nat)
  | syncAll
  | reply (write : Nat) (reply : Reply)
  | store (write : Nat)
  | finish (write : Nat)
  | directReply (direct : Nat) (reply : Reply)
  | sync (kind : SyncKind)
  | syncReply (reply : Reply)

/-- The `wb_fsync` or `wb_flush` comes after the calls of `wb_writev`. -/
def step (conf : Conf) (s : State) : Event → Option State
  | .writev offset vector => if s.sync = none then some (wbWritev s offset vector) else none
  | .flush frame =>
    match s.calls[frame]? with
    | some c =>
      if c.phase = .flush then
        some (setPhase (wbProcessQueue conf true s) frame .enqueue)
      else
        none
    | none => none
  | .enqueue frame =>
    match s.calls[frame]? with
    | some c => if c.phase = .enqueue then some (wbEnqueue s frame c) else none
    | none => none
  | .process frame =>
    match s.calls[frame]? with
    | some c =>
      if c.phase = .process then
        some (setPhase (wbProcessQueue conf false s) frame .returned)
      else
        none
    | none => none
  | .syncAll => some (wbSyncAll s)
  | .reply i reply =>
    match s.writes[i]? with
    | some w =>
      if w.status = .wound ∧ reply.Possible (iovLength w.vector) then
        some (wbSyncCbk s i w reply)
      else
        none
    | none => none
  | .store i =>
    match s.writes[i]? with
    | some ⟨requests, .replied reply⟩ => some (storeError s i ⟨requests, .replied reply⟩ reply)
    | _ => none
  | .finish i =>
    match s.writes[i]? with
    | some ⟨requests, .stored reply⟩ =>
      some (wbProcessQueue conf false { s with writes := s.writes.set i ⟨requests, .done reply⟩ })
    | _ => none
  | .directReply i reply =>
    match s.directs[i]? with
    | some ⟨frame, none⟩ =>
      if reply.Possible (((s.calls[frame]?).map (fun c => iovLength c.vector)).getD 0) then
        some
          { s with
            directs := s.directs.set i ⟨frame, some reply⟩
            unwound := s.unwound ++ [⟨frame, reply.opRet, reply.opErrno⟩] }
      else
        none
    | _ => none
  | .sync kind =>
    if s.sync = none ∧ ∀ c ∈ s.calls, c.phase = .returned then
      some { wbSyncAll s with sync := some (.wound kind) }
    else
      none
  | .syncReply reply =>
    match s.sync with
    | some (.wound kind) => some (kind.cbk s reply)
    | _ => none

def start (disabled : Bool) (disableTill : Nat) : State where
  file := ⟨disabled, disableTill, 0, 0, 0, []⟩
  calls := []
  accepted := []
  writes := []
  directs := []
  unwound := []
  sync := none
  overrun := false

variable {conf : Conf} {s s' : State} {queue : List WriteRequest} {e : Event} {frame i : Nat}
  {c : Call} {w : ChildWrite} {x : WriteData} {status : WriteStatus} {keep : WriteRequest → Bool}
  {wound : Bool} {behind : List Nat} {r : WriteRequest}

/-- Each event with what it needs and what it leads to. -/
inductive Step (conf : Conf) (s : State) : Event → State → Prop
  | writev (offset : Nat) (vector : List (List Byte))
      (hsync : s.sync = none) :
      Step conf s (.writev offset vector) (wbWritev s offset vector)
  | flush (frame : Nat) (c : Call)
      (hcall : s.calls[frame]? = some c)
      (hphase : c.phase = .flush) :
      Step conf s (.flush frame) (setPhase (wbProcessQueue conf true s) frame .enqueue)
  | enqueue (frame : Nat) (c : Call)
      (hcall : s.calls[frame]? = some c)
      (hphase : c.phase = .enqueue) :
      Step conf s (.enqueue frame) (wbEnqueue s frame c)
  | process (frame : Nat) (c : Call)
      (hcall : s.calls[frame]? = some c)
      (hphase : c.phase = .process) :
      Step conf s (.process frame) (setPhase (wbProcessQueue conf false s) frame .returned)
  | syncAll :
      Step conf s .syncAll (wbSyncAll s)
  | reply (i : Nat) (w : ChildWrite) (reply : Reply)
      (hwrite : s.writes[i]? = some w)
      (hstatus : w.status = .wound)
      (hpossible : reply.Possible (iovLength w.vector)) :
      Step conf s (.reply i reply) (wbSyncCbk s i w reply)
  | store (i : Nat) (requests : List WriteData) (reply : Reply)
      (hwrite : s.writes[i]? = some ⟨requests, .replied reply⟩) :
      Step conf s (.store i) (storeError s i ⟨requests, .replied reply⟩ reply)
  | finish (i : Nat) (requests : List WriteData) (reply : Reply)
      (hwrite : s.writes[i]? = some ⟨requests, .stored reply⟩) :
      Step conf s (.finish i) (wbProcessQueue conf false
        { s with writes := s.writes.set i ⟨requests, .done reply⟩ })
  | directReply (i frame : Nat) (reply : Reply)
      (hdirect : s.directs[i]? = some ⟨frame, none⟩)
      (hpossible : reply.Possible (((s.calls[frame]?).map (fun c => iovLength c.vector)).getD 0)) :
      Step conf s (.directReply i reply)
        { s with
          directs := s.directs.set i ⟨frame, some reply⟩
          unwound := s.unwound ++ [⟨frame, reply.opRet, reply.opErrno⟩] }
  | sync (kind : SyncKind)
      (hsync : s.sync = none)
      (hcalls : ∀ c ∈ s.calls, c.phase = .returned) :
      Step conf s (.sync kind) { wbSyncAll s with sync := some (.wound kind) }
  | syncReply (kind : SyncKind) (reply : Reply)
      (hsync : s.sync = some (.wound kind)) :
      Step conf s (.syncReply reply) (kind.cbk s reply)

theorem step_sound (h : step conf s e = some s') : Step conf s e s' := by
  cases e with
  | writev offset vector =>
    simp only [step] at h
    split at h
    · next hsync =>
        cases h
        exact .writev offset vector hsync
    · cases h
  | flush frame | enqueue frame | process frame =>
    simp only [step] at h
    split at h
    · next c hcall =>
        split at h
        · next hph =>
            cases h
            constructor <;> assumption
        · cases h
    · cases h
  | syncAll =>
    cases h
    exact .syncAll
  | reply i reply =>
    simp only [step] at h
    split at h
    · next w hwr =>
        split at h
        · next hcond =>
            cases h
            exact .reply i w reply hwr hcond.1 hcond.2
        · cases h
    · cases h
  | store i | finish i =>
    simp only [step] at h
    split at h
    · next hwr =>
        cases h
        constructor
        exact hwr
    · cases h
  | directReply i reply =>
    simp only [step] at h
    split at h
    · next frame hdir =>
        split at h
        · next hposs =>
            cases h
            exact .directReply i frame reply hdir hposs
        · cases h
    · cases h
  | sync kind =>
    simp only [step] at h
    split at h
    · next hcond =>
        cases h
        exact .sync kind hcond.1 hcond.2
    · cases h
  | syncReply reply =>
    simp only [step] at h
    split at h
    · next kind hsync =>
        cases h
        exact .syncReply kind reply hsync
    · cases h

/-- What a section does to one request: it may mark it as written, and as answered. -/
def WriteRequest.mark (wound : Bool) (behind : List Nat) (r : WriteRequest) : WriteRequest :=
  { r with
    stackWound := r.stackWound || wound
    writeBehind := r.writeBehind || decide (r.frame ∈ behind) }

@[simp] theorem mark_toWriteData (wound : Bool) (behind : List Nat) (r : WriteRequest) :
    (r.mark wound behind).toWriteData = r.toWriteData := by
  rfl

open WriteRequest

theorem mark_of_behind (h : r.writeBehind = true) (behind : List Nat) :
    r.mark false behind = r := by
  rw [mark, Bool.or_false, h, Bool.true_or, ← h]

@[simp] theorem map_mark_none (queue : List WriteRequest) :
    queue.map (mark false []) = queue := by
  refine map_id'' ?_ queue
  intro r
  simp [mark]

abbrev frames (queue : List WriteRequest) : List Nat :=
  queue.map (fun r => r.frame)

theorem wbMarkUnwindTill_sublist (size : Nat) (queue : List WriteRequest) (n : Nat) :
    (wbMarkUnwindTill size queue n).2.Sublist
      (frames (queue.filter (fun r => !r.writeBehind))) := by
  induction queue generalizing n with
  | nil => exact List.Sublist.refl _
  | cons r rest ih =>
    by_cases hsize : n ≤ size
    · by_cases hbeh : r.writeBehind
      · simpa [wbMarkUnwindTill, hsize, hbeh] using ih n
      · simpa [wbMarkUnwindTill, hsize, hbeh] using ih (n + r.toWriteData.size)
    · simp [wbMarkUnwindTill, hsize]

theorem wbMarkUnwindTill_eq (size : Nat) (hnd : (frames queue).Nodup) (n : Nat) :
    (wbMarkUnwindTill size queue n).1 =
      queue.map (mark false (wbMarkUnwindTill size queue n).2) := by
  induction queue generalizing n with
  | nil => rfl
  | cons r rest ih =>
    obtain ⟨hr, hrest⟩ := nodup_cons.mp hnd
    -- the head is not among the frames that are answered further on
    have hoth : ∀ n, rest.map (mark false (wbMarkUnwindTill size rest n).2) =
        rest.map (mark false (r.frame :: (wbMarkUnwindTill size rest n).2)) := by
      intro n
      refine map_congr_left ?_
      intro x hx
      have hne : x.frame ≠ r.frame := by
        intro heq
        exact hr (mem_map.mpr ⟨x, hx, heq⟩)
      simp [mark, hne]
    by_cases hsize : n ≤ size
    · by_cases hbeh : r.writeBehind
      · simp only [wbMarkUnwindTill, hsize, hbeh, if_true, map_cons, ih hrest, mark_of_behind]
      · simp only [wbMarkUnwindTill, hsize, hbeh, if_true, Bool.false_eq_true, if_false,
          map_cons, ih hrest, hoth]
        simp [mark]
    · simp [wbMarkUnwindTill, hsize, map_mark_none (r :: rest)]

theorem wbMarkUnwinds_spec (hnd : (frames queue).Nodup) (windowConf : Nat) :
    (wbMarkUnwinds queue windowConf).1 = queue.map (mark false (wbMarkUnwinds queue windowConf).2) ∧
      (wbMarkUnwinds queue windowConf).2.Sublist
        (frames (queue.filter (fun r => !r.writeBehind))) := by
  unfold wbMarkUnwinds
  split
  · exact ⟨wbMarkUnwindTill_eq _ hnd _, wbMarkUnwindTill_sublist _ _ _⟩
  · simp

theorem wbMarkWinds_spec (queue : List WriteRequest) (aggregateConf : Nat) :
    ∃ wound, wbMarkWinds queue aggregateConf =
          (queue.map (mark wound []), if wound then unmarked queue else []) ∧
        (aggregateConf = 0 → wound = true) := by
  unfold wbMarkWinds
  split
  · refine ⟨true, ?_, fun _ => rfl⟩
    simp [wbMarkWindAll, mark]
  · next hcond =>
      refine ⟨false, ?_, ?_⟩
      · simp
      · intro hzero
        exact absurd (.inr (by rw [hzero]; exact Nat.zero_le _)) hcond

theorem unmarked_mark (queue : List WriteRequest) (wound : Bool) (behind : List Nat) :
    unmarked (queue.map (mark wound behind)) =
      if wound then [] else unmarked queue := by
  cases wound with
  | false => simp [unmarked, filter_map, comp_def, mark]
  | true => simp [unmarked, mark]

theorem frames_mark (queue : List WriteRequest) (wound : Bool) (behind : List Nat) :
    frames (queue.map (mark wound behind)) = frames queue := by
  simp

theorem wbProcessQueue_spec (conf : Conf) (flushAll : Bool)
    (hnd : (frames s.file.request).Nodup) :
    ∃ wound unwinds, wbProcessQueue conf flushAll s =
          wbDoOps s ((wbCleanupQueue s.file.request).map (mark wound unwinds))
            (if wound then unmarked (wbCleanupQueue s.file.request) else []) unwinds ∧
        (flushAll = true → wound = true) ∧
        unwinds = (wbMarkUnwinds (wbMarkWinds (wbCleanupQueue s.file.request)
          (if flushAll then 0 else conf.aggregateSize)).1 conf.windowSize).2 ∧
        unwinds.Sublist
          (frames ((wbCleanupQueue s.file.request).filter (fun r => !r.writeBehind))) := by
  obtain ⟨wound, hwinds, hzero⟩ := wbMarkWinds_spec (wbCleanupQueue s.file.request)
    (if flushAll then 0 else conf.aggregateSize)
  have hclean : (frames (wbCleanupQueue s.file.request)).Nodup :=
    hnd.sublist (filter_sublist.map _)
  have hmark : (frames ((wbCleanupQueue s.file.request).map
      (mark wound []))).Nodup := by
    rw [frames_mark]
    exact hclean
  obtain ⟨heq, hsub⟩ := wbMarkUnwinds_spec hmark conf.windowSize
  refine ⟨wound, _, ?_, fun hfl => hzero (by rw [if_pos hfl]), rfl, ?_⟩
  · simp only [wbProcessQueue, hwinds, heq, map_map]
    congr 1
    refine map_congr_left ?_
    intro r _
    simp [mark]
  · simp only [hwinds]
    refine hsub.trans ?_
    simp [filter_map, comp_def, mark]

theorem wbSyncAll_eq (s : State) :
    wbSyncAll s = wbDoOps s (s.file.request.map (mark true [])) (unmarked s.file.request) [] := by
  obtain ⟨wound, hwinds, hzero⟩ := wbMarkWinds_spec s.file.request 0
  rw [hzero rfl] at hwinds
  simp [wbSyncAll, hwinds]

/-- A call that has queued its request, or needs no queue. -/
def Started (s : State) (frame : Nat) : Prop :=
  ∃ c, s.calls[frame]? = some c ∧ (c.phase = .process ∨ c.phase = .returned)

theorem cbk_eq (kind : SyncKind) (s : State) (reply : Reply) :
    kind.cbk s reply =
      { s with
        file := { s.file with opRet := if s.file.opRet = -1 then 0 else s.file.opRet }
        sync := some (.answered
          (if s.file.opRet = -1 then ⟨s.file.opRet, s.file.opErrno⟩ else reply)) } := by
  have hcbk : kind.cbk = syncCbk := by cases kind <;> rfl
  rw [hcbk, syncCbk]
  split <;> rfl

theorem storeError_eq (s : State) (i : Nat) (w : ChildWrite) (reply : Reply) :
    storeError s i w reply =
      { s with
        file :=
          { s.file with
            opRet := if reply.opRet = -1 then reply.opRet else s.file.opRet
            opErrno := if reply.opRet = -1 then reply.opErrno else s.file.opErrno }
        writes := s.writes.set i { w with status := .stored reply } } := by
  rw [storeError]
  split <;> rfl

theorem getElem?_markFailed
    (queue : List WriteRequest) (frames : List Nat) (reply : Reply) (calls : List Call) (i : Nat) :
    ∃ f : Call → Call, (∀ c, (f c).phase = c.phase) ∧
      (markFailed queue frames reply calls)[i]? = (calls[i]?).map f := by
  refine ⟨fun c =>
    if reply.opRet = -1 ∧ ∃ r ∈ queue, r.frame = i ∧ i ∈ frames ∧ r.writeBehind = false then
      { c with opRet := reply.opRet, opErrno := reply.opErrno }
    else
      c, ?_, ?_⟩
  · intro c
    split_ifs <;> rfl
  · rw [markFailed, getElem?_mapIdx]

theorem Started.of_modify {f : Call → Call} {calls : List Call}
    (hcalls : calls = s.calls.modify frame f) (hs' : s'.calls = calls)
    (hcall : s.calls[frame]? = some c)
    (hph : (f c).phase = .process ∨ (f c).phase = .returned ∨ c.phase = .flush ∨ c.phase = .enqueue)
    (h : Started s i) : Started s' i := by
  obtain ⟨d, hd, hsta⟩ := h
  by_cases hi : frame = i
  · subst hi
    obtain rfl : c = d := Option.some_inj.mp (hcall.symm.trans hd)
    refine ⟨f c, ?_, ?_⟩
    · simp [hs', hcalls, hcall]
    · rcases hph with hp | hp | hp | hp
      · exact .inl hp
      · exact .inr hp
      · rw [hp] at hsta
        simp at hsta
      · rw [hp] at hsta
        simp at hsta
  · refine ⟨d, ?_, hsta⟩
    simp [hs', hcalls, hi, hd]

theorem Started.step (hstep : Step conf s e s') (h : Started s i) : Started s' i := by
  obtain ⟨d, hd, hsta⟩ := h
  cases hstep with
  | writev offset vector hsync =>
    refine ⟨d, ?_, hsta⟩
    have hlt : i < s.calls.length := (List.getElem?_eq_some_iff.mp hd).1
    unfold wbWritev
    split <;> simp [getElem?_append_left hlt, hd]
  | flush frame c hcall hph =>
    exact .of_modify rfl rfl hcall (.inr (.inr (.inl hph))) ⟨d, hd, hsta⟩
  | enqueue frame c hcall hph => exact .of_modify rfl rfl hcall (.inl rfl) ⟨d, hd, hsta⟩
  | process frame c hcall hph =>
    exact .of_modify rfl rfl hcall (.inr (.inl rfl)) ⟨d, hd, hsta⟩
  | syncAll => exact ⟨d, hd, hsta⟩
  | reply j w reply hwr hstat hposs =>
    obtain ⟨f, hf, hget⟩ := getElem?_markFailed s.file.request (w.requests.map WriteData.frame)
      reply s.calls i
    refine ⟨f d, ?_, ?_⟩
    · rw [wbSyncCbk, hget, hd]
      rfl
    · rw [hf]
      exact hsta
  | store j requests reply hwr => exact ⟨d, hd, hsta⟩
  | finish j requests reply hwr => exact ⟨d, hd, hsta⟩
  | directReply j frame reply hdir hposs | sync kind hsync hcalls => exact ⟨d, hd, hsta⟩
  | syncReply kind reply hsync =>
    rw [cbk_eq]
    exact ⟨d, hd, hsta⟩

def Sent (s : State) (x : WriteData) : Prop :=
  ∃ w ∈ s.writes, x ∈ w.requests

/-- What holds of the queue in every run. -/
structure Queued (s : State) : Prop where
  nodup : (frames s.file.request).Nodup
  replied : ∀ r ∈ s.file.request, r.gotReply = true → r.stackWound = true
  started : ∀ r ∈ s.file.request, Started s r.frame
  sent_wound : ∀ x, Sent s x → ∀ r ∈ s.file.request, r.frame = x.frame → r.stackWound = true
  sent_started : ∀ x, Sent s x → Started s x.frame

theorem queued_start (disabled : Bool) (disableTill : Nat) :
    Queued (start disabled disableTill) := by
  refine ⟨nodup_nil, nofun, nofun, ?_, ?_⟩
  · rintro x ⟨w, hw, -⟩
    cases hw
  · rintro x ⟨w, hw, -⟩
    cases hw

theorem map_requests_set {writes : List ChildWrite} (hwr : writes[i]? = some w) :
    (writes.set i { w with status := status }).map ChildWrite.requests =
      writes.map ChildWrite.requests := by
  obtain ⟨hlt, rfl⟩ := List.getElem?_eq_some_iff.mp hwr
  have hlt' : i < (writes.map ChildWrite.requests).length := by simpa using hlt
  have hself : (⟨writes[i].requests, status⟩ : ChildWrite).requests =
      (writes.map ChildWrite.requests)[i] := by simp
  rw [map_set, hself, set_getElem_self]

theorem sent_set_iff (hwr : s.writes[i]? = some w)
    (hwrs : s'.writes = s.writes.set i { w with status := status }) : Sent s' x ↔ Sent s x := by
  unfold Sent
  rw [← mem_flatMap, ← mem_flatMap, flatMap_def, hwrs, map_requests_set hwr, flatMap_def]

/-- A section that marks requests of the queue, with what its thread does after it. -/
structure Processed (s s' : State) (keep : WriteRequest → Bool) (wound : Bool)
    (behind : List Nat) : Prop where
  finished : ∀ r, keep r = false → r.gotReply = true ∧ r.writeBehind = true
  behind_sub : behind.Sublist (frames ((s.file.request.filter keep).filter (fun r => !r.writeBehind)))
  queue : s'.file.request = (s.file.request.filter keep).map (WriteRequest.mark wound behind)
  writes : s'.writes = s.writes ++
    (wbSync (if wound then unmarked s.file.request else [])).map (fun rs => ⟨rs, .wound⟩)
  overrun : s'.overrun =
    (s.overrun || decide (Overruns (if wound then unmarked s.file.request else [])))
  unwound : s'.unwound = s.unwound ++ behind.map (answerOf s)
  accepted : s'.accepted = s.accepted
  directs : s'.directs = s.directs
  offset : s'.file.offset = s.file.offset
  opRet : s'.file.opRet = s.file.opRet

def unfinished (r : WriteRequest) : Bool :=
  !(r.gotReply && r.writeBehind)

theorem Queued.unmarked_filter (h : Queued s)
    (hkeep : ∀ r, keep r = false → r.gotReply = true ∧ r.writeBehind = true) :
    unmarked (s.file.request.filter keep) = unmarked s.file.request := by
  rw [unmarked, unmarked, filter_filter]
  congr 1
  refine filter_congr ?_
  intro r hr
  cases hk : keep r with
  | true => simp
  | false => simp [h.replied r hr (hkeep r hk).1]

theorem processed_wbProcessQueue (h : Queued s) (conf : Conf) (flushAll : Bool) :
    ∃ wound behind, Processed s (wbProcessQueue conf flushAll s) unfinished wound behind ∧
        (flushAll = true → wound = true) ∧
        behind = (wbMarkUnwinds (wbMarkWinds (wbCleanupQueue s.file.request)
          (if flushAll then 0 else conf.aggregateSize)).1 conf.windowSize).2 := by
  have hkeep : ∀ r, unfinished r = false → r.gotReply = true ∧ r.writeBehind = true := by
    intro r hr
    simpa [unfinished] using hr
  obtain ⟨wound, behind, heq, hfl, hbeh, hsub⟩ := wbProcessQueue_spec conf flushAll h.nodup
  refine ⟨wound, behind, ?_, hfl, hbeh⟩
  have hunmk : unmarked (wbCleanupQueue s.file.request) = unmarked s.file.request :=
    h.unmarked_filter hkeep
  rw [heq, hunmk]
  exact ⟨hkeep, hsub, rfl, rfl, rfl, rfl, rfl, rfl, rfl, rfl⟩

theorem Queued.processed (h : Queued s) (conf : Conf) (flushAll : Bool) :
    ∃ wound behind, Processed s (wbProcessQueue conf flushAll s) unfinished wound behind := by
  obtain ⟨wound, behind, hproc, -, -⟩ := processed_wbProcessQueue h conf flushAll
  exact ⟨wound, behind, hproc⟩

theorem processed_wbSyncAll (s : State) : Processed s (wbSyncAll s) (fun _ => true) true [] := by
  rw [wbSyncAll_eq]
  refine ⟨by simp, nil_sublist _, ?_, rfl, rfl, rfl, rfl, rfl, rfl, rfl⟩
  rw [filter_true]
  rfl

theorem flatten_glue (glued winds : List WriteData) (h : winds ≠ []) :
    (glue glued winds).flatten = glued ++ winds := by
  induction glued, winds using glue.induct with
  | case1 glued => exact absurd rfl h
  | case2 glued x => simp [glue]
  | case3 glued x next rest hcnt ih =>
    rw [glue, if_pos hcnt, flatten_cons, ih (by simp)]
    simp
  | case4 glued x next rest hcnt ih =>
    rw [glue, if_neg hcnt, ih (by simp)]
    simp

theorem mem_flatten_wbSync {winds : List WriteData} (h : x ∈ (wbSync winds).flatten) :
    x ∈ winds := by
  unfold wbSync at h
  split at h
  · simp at h
  · next hcnt =>
      have hne : winds ≠ [] := by
        rintro rfl
        exact hcnt rfl
      rwa [flatten_glue [] winds hne] at h

theorem Processed.sent (h : Processed s s' keep wound behind) (hx : Sent s' x) :
    Sent s x ∨ (wound = true ∧ x ∈ unmarked s.file.request) := by
  obtain ⟨w, hw, hx⟩ := hx
  rw [h.writes] at hw
  rcases mem_append.mp hw with hw | hw
  · exact .inl ⟨w, hw, hx⟩
  · obtain ⟨rs, hrs, rfl⟩ := mem_map.mp hw
    have hmem := mem_flatten_wbSync (mem_flatten.mpr ⟨rs, hrs, hx⟩)
    cases wound with
    | false => simp at hmem
    | true => exact .inr ⟨rfl, hmem⟩

theorem mem_unmarked :
    x ∈ unmarked queue ↔ ∃ r ∈ queue, r.stackWound = false ∧ r.toWriteData = x := by
  simp [unmarked, and_assoc]

theorem Processed.exists_mark (h : Processed s s' keep wound behind)
    (hr : r ∈ s'.file.request) : ∃ x ∈ s.file.request, x.mark wound behind = r := by
  rw [h.queue] at hr
  obtain ⟨x, hx, rfl⟩ := mem_map.mp hr
  exact ⟨x, mem_of_mem_filter hx, rfl⟩

theorem Processed.queued (h : Processed s s' keep wound behind) (hque : Queued s)
    (hsta : ∀ i, Started s i → Started s' i) : Queued s' := by
  constructor
  · rw [h.queue, frames_mark]
    exact hque.nodup.sublist (filter_sublist.map _)
  · intro r hr hrep
    obtain ⟨x, hx, rfl⟩ := h.exists_mark hr
    simp [mark, hque.replied x hx hrep]
  · intro r hr
    obtain ⟨x, hx, rfl⟩ := h.exists_mark hr
    exact hsta x.frame (hque.started x hx)
  · intro x hx r hr hfr
    obtain ⟨y, hy, rfl⟩ := h.exists_mark hr
    rcases h.sent hx with hsent | ⟨rfl, -⟩
    · simp [mark, hque.sent_wound x hsent y hy hfr]
    · simp [mark]
  · intro x hx
    rcases h.sent hx with hsent | ⟨-, hmem⟩
    · exact hsta x.frame (hque.sent_started x hsent)
    · obtain ⟨r, hr, -, rfl⟩ := mem_unmarked.mp hmem
      exact hsta r.frame (hque.started r hr)

theorem Queued.same (h : Queued s) (hqu : s'.file.request = s.file.request)
    (hsent : ∀ x, Sent s' x → Sent s x) (hsta : ∀ i, Started s i → Started s' i) : Queued s' := by
  refine ⟨hqu ▸ h.nodup, hqu ▸ h.replied, ?_, ?_, ?_⟩
  · intro r hr
    exact hsta r.frame (h.started r (hqu ▸ hr))
  · intro x hx r hr
    exact h.sent_wound x (hsent x hx) r (hqu ▸ hr)
  · intro x hx
    exact hsta x.frame (h.sent_started x (hsent x hx))

theorem not_started (hcall : s.calls[frame]? = some c) (hph : c.phase = .enqueue) :
    ¬ Started s frame := by
  rintro ⟨d, hd, hsta⟩
  rw [hcall] at hd
  cases hd
  rw [hph] at hsta
  simp at hsta

theorem Queued.not_mem (h : Queued s) (hcall : s.calls[frame]? = some c)
    (hph : c.phase = .enqueue) : ∀ r ∈ s.file.request, r.frame ≠ frame := by
  rintro r hr rfl
  exact not_started hcall hph (h.started r hr)

theorem Queued.enqueue (h : Queued s) (hcall : s.calls[frame]? = some c)
    (hph : c.phase = .enqueue) (hsta : ∀ i, Started s i → Started (wbEnqueue s frame c) i) :
    Queued (wbEnqueue s frame c) := by
  have hnot := h.not_mem hcall hph
  constructor
  · simp only [wbEnqueue, map_append, nodup_append]
    refine ⟨h.nodup, nodup_singleton _, ?_⟩
    intro i hi j hj
    obtain ⟨r, hr, rfl⟩ := mem_map.mp hi
    rw [mem_singleton.mp hj]
    exact hnot r hr
  · exact forall_mem_append.mpr ⟨h.replied, forall_mem_singleton.mpr nofun⟩
  · refine forall_mem_append.mpr ⟨fun r hr => hsta r.frame (h.started r hr), ?_⟩
    exact forall_mem_singleton.mpr ⟨{ c with
      phase := .process, opRet := iovLength c.vector, opErrno := 0 },
      by simp [wbEnqueue, hcall], .inl rfl⟩
  · intro x hx r hr hfr
    rcases mem_append.mp hr with hr | hr
    · exact h.sent_wound x hx r hr hfr
    · rw [mem_singleton.mp hr] at hfr
      have hfr' : frame = x.frame := hfr
      exact absurd (hfr' ▸ h.sent_started x hx) (not_started hcall hph)
  · intro x hx
    exact hsta x.frame (h.sent_started x hx)

theorem Queued.reply {reply : Reply} (h : Queued s) (hwr : s.writes[i]? = some w)
    (hsta : ∀ i, Started s i → Started (wbSyncCbk s i w reply) i) :
    Queued (wbSyncCbk s i w reply) := by
  have hsent : ∀ x, Sent (wbSyncCbk s i w reply) x → Sent s x :=
    fun x => (sent_set_iff hwr rfl).mp
  have hmem : ∀ r ∈ (wbSyncCbk s i w reply).file.request, ∃ y ∈ s.file.request,
      r.toWriteData = y.toWriteData ∧ r.stackWound = y.stackWound ∧
        (r.gotReply = true → y.gotReply = true ∨ ∃ x ∈ w.requests, x.frame = y.frame) := by
    intro r hr
    obtain ⟨y, hy, rfl⟩ := mem_map.mp hr
    refine ⟨y, hy, ?_⟩
    split_ifs with hfr
    · refine ⟨rfl, rfl, ?_⟩
      intro _
      exact .inr (mem_map.mp hfr)
    · exact ⟨rfl, rfl, .inl⟩
  constructor
  · have hfrs : frames (wbSyncCbk s i w reply).file.request = frames s.file.request := by
      simp only [wbSyncCbk, map_map]
      refine map_congr_left ?_
      intro r _
      simp only [comp_apply]
      split_ifs <;> rfl
    rw [hfrs]
    exact h.nodup
  · intro r hr hrep
    obtain ⟨y, hy, -, hwnd, hrepl⟩ := hmem r hr
    rw [hwnd]
    rcases hrepl hrep with hy' | ⟨x, hx, hfr⟩
    · exact h.replied y hy hy'
    · exact h.sent_wound x ⟨w, mem_of_getElem? hwr, hx⟩ y hy hfr.symm
  · intro r hr
    obtain ⟨y, hy, hdata, -, -⟩ := hmem r hr
    rw [hdata]
    exact hsta y.frame (h.started y hy)
  · intro x hx r hr hfr
    obtain ⟨y, hy, hdata, hwnd, -⟩ := hmem r hr
    rw [hwnd]
    exact h.sent_wound x (hsent x hx) y hy (by rw [← hdata]; exact hfr)
  · intro x hx
    exact hsta x.frame (h.sent_started x (hsent x hx))

theorem Queued.set (h : Queued s) (hwr : s.writes[i]? = some w) (status : WriteStatus) :
    Queued { s with writes := s.writes.set i { w with status := status } } :=
  h.same rfl (fun _ => (sent_set_iff hwr rfl).mp) (fun _ => id)

theorem Queued.step (hstep : Step conf s e s') (h : Queued s) : Queued s' := by
  have hsta : ∀ i, Started s i → Started s' i := fun i => Started.step hstep
  cases hstep with
  | writev offset vector hsync =>
    rw [wbWritev] at hsta ⊢
    split_ifs at hsta ⊢ <;> exact h.same rfl (fun _ => id) hsta
  | flush frame c hcall hph | process frame c hcall hph =>
    obtain ⟨_, _, hproc⟩ := h.processed conf _
    exact (hproc.queued h (fun _ => id)).same rfl (fun _ => id) hsta
  | enqueue frame c hcall hph => exact h.enqueue hcall hph hsta
  | syncAll => exact (processed_wbSyncAll s).queued h hsta
  | reply i w reply hwr hstat hposs => exact h.reply hwr hsta
  | store i requests reply hwr =>
    rw [storeError_eq] at hsta ⊢
    exact h.same rfl (fun x => (sent_set_iff hwr rfl).mp) hsta
  | finish i requests reply hwr =>
    have h' := h.set hwr (.done reply)
    obtain ⟨_, _, hproc⟩ := h'.processed conf false
    exact hproc.queued h' hsta
  | directReply i frame reply hdir hposs => exact h.same rfl (fun _ => id) hsta
  | sync kind hsync hcalls =>
    exact ((processed_wbSyncAll s).queued h (fun _ => id)).same rfl (fun _ => id) hsta
  | syncReply kind reply hsync =>
    rw [cbk_eq] at hsta ⊢
    exact h.same rfl (fun _ => id) hsta

def hasData (x : WriteData) : Bool :=
  decide (x.count ≠ 0)

/-- The requests with something to write are those that were written and those that wait. -/
def Carried (s : State) : Prop :=
  s.accepted.filter hasData =
    (s.writes.flatMap ChildWrite.requests ++ unmarked s.file.request).filter hasData

theorem filter_flatten_wbSync (winds : List WriteData) :
    (wbSync winds).flatten.filter hasData = winds.filter hasData := by
  unfold wbSync
  split
  · next hcnt =>
      refine (filter_eq_nil_iff.mpr ?_).symm
      intro x hx
      have := sum_eq_zero_iff.mp hcnt x.count (mem_map_of_mem hx)
      simp [hasData, this]
  · next hcnt =>
      have hne : winds ≠ [] := by
        rintro rfl
        exact hcnt rfl
      rw [flatten_glue [] winds hne, nil_append]

theorem Processed.carried (h : Processed s s' keep wound behind) (hque : Queued s)
    (hcar : Carried s) : Carried s' := by
  have hunmk := hque.unmarked_filter h.finished
  have hnew : ((wbSync (if wound then unmarked s.file.request else [])).map
      (fun rs => (⟨rs, .wound⟩ : ChildWrite))).flatMap ChildWrite.requests =
      (wbSync (if wound then unmarked s.file.request else [])).flatten := by
    simp [flatMap_map]
  rw [Carried, h.accepted, hcar, h.writes, h.queue, unmarked_mark, hunmk, flatMap_append, hnew]
  simp only [filter_append, filter_flatten_wbSync]
  cases wound <;> simp

theorem unmarked_reply (queue : List WriteRequest) (fs : List Nat) :
    unmarked (queue.map (fun r => if r.frame ∈ fs then { r with gotReply := true } else r)) =
      unmarked queue := by
  induction queue with
  | nil => rfl
  | cons r rest ih =>
    simp only [unmarked] at ih ⊢
    cases hwnd : r.stackWound <;> by_cases hfr : r.frame ∈ fs <;> simp [hwnd, hfr, ih]

/-- The requests that wait and those of the writes are as before. -/
structure SameWork (s s' : State) : Prop where
  accepted : s'.accepted = s.accepted
  overrun : s'.overrun = s.overrun
  offset : s'.file.offset = s.file.offset
  waiting : unmarked s'.file.request = unmarked s.file.request
  requests : s'.writes.map ChildWrite.requests = s.writes.map ChildWrite.requests

/-- What the work decides is kept if the sections that mark requests and the queueing keep it. -/
theorem Step.keeps {P : State → Prop} (hstep : Step conf s e s') (hque : Queued s)
    (hsame : ∀ {s s'}, P s → SameWork s s' → P s')
    (hproc : ∀ {s s' keep wound behind}, Processed s s' keep wound behind → Queued s → P s → P s')
    (henqueue : ∀ frame c, e = .enqueue frame → s.calls[frame]? = some c → c.phase = .enqueue →
      P (wbEnqueue s frame c)) (h : P s) : P s' := by
  cases hstep with
  | writev offset vector hsync =>
    unfold wbWritev
    split <;> exact hsame h ⟨rfl, rfl, rfl, rfl, rfl⟩
  | flush frame c hcall hph | process frame c hcall hph =>
    obtain ⟨_, _, hp⟩ := hque.processed conf _
    exact hsame (hproc hp hque h) ⟨rfl, rfl, rfl, rfl, rfl⟩
  | enqueue frame c hcall hph => exact henqueue frame c rfl hcall hph
  | syncAll => exact hproc (processed_wbSyncAll s) hque h
  | sync kind hsync hcalls =>
    exact hsame (hproc (processed_wbSyncAll s) hque h) ⟨rfl, rfl, rfl, rfl, rfl⟩
  | reply i w reply hwr hstat hposs =>
    exact hsame h ⟨rfl, rfl, rfl, unmarked_reply _ _, map_requests_set hwr⟩
  | store i requests reply hwr =>
    rw [storeError_eq]
    exact hsame h ⟨rfl, rfl, rfl, rfl, map_requests_set hwr⟩
  | finish i requests reply hwr =>
    have hque' := hque.set hwr (.done reply)
    obtain ⟨_, _, hp⟩ := hque'.processed conf false
    exact hproc hp hque' (hsame h ⟨rfl, rfl, rfl, rfl, map_requests_set hwr⟩)
  | directReply i frame reply hdir hposs => exact hsame h ⟨rfl, rfl, rfl, rfl, rfl⟩
  | syncReply kind reply hsync =>
    rw [cbk_eq]
    exact hsame h ⟨rfl, rfl, rfl, rfl, rfl⟩

theorem Carried.step (hstep : Step conf s e s') (hque : Queued s) (h : Carried s) : Carried s' := by
  refine hstep.keeps hque ?_ (fun hproc hque h => hproc.carried hque h) ?_ h
  · intro s s' h hsame
    rw [Carried, hsame.accepted, flatMap_def, hsame.requests, hsame.waiting, ← flatMap_def]
    exact h
  · intro frame c _ _ _
    simp only [Carried] at h
    simp [Carried, wbEnqueue, h, unmarked]

/-- The vector of a request that is queued is not too long for `wb_sync`. -/
def VectorFits (s : State) : Event → Prop
  | .enqueue frame => ∀ c ∈ s.calls[frame]?, c.vector.length ≤ maxVectorCount
  | _ => True

instance (s : State) : ∀ e, Decidable (VectorFits s e) := by
  rintro (_ | _) <;> dsimp only [VectorFits] <;> infer_instance

/-- No vector was overrun, and none that waits will be. -/
structure Fits (s : State) : Prop where
  small : ∀ x ∈ unmarked s.file.request, x.count ≤ maxVectorCount
  overrun : s.overrun = false

theorem fits_start (disabled : Bool) (disableTill : Nat) : Fits (start disabled disableTill) :=
  ⟨nofun, rfl⟩

theorem Processed.unmarked (h : Processed s s' keep wound behind) (hque : Queued s) :
    unmarked s'.file.request = if wound then [] else unmarked s.file.request := by
  rw [h.queue, unmarked_mark, hque.unmarked_filter h.finished]

theorem Processed.fits (h : Processed s s' keep wound behind) (hque : Queued s)
    (hfits : Fits s) : Fits s' := by
  constructor
  · rw [h.unmarked hque]
    cases wound with
    | false => exact hfits.small
    | true => nofun
  · rw [h.overrun, hfits.overrun, Bool.false_or, decide_eq_false_iff_not]
    rintro ⟨x, hx, hcnt⟩
    cases wound with
    | false => cases hx
    | true => exact absurd (hfits.small x hx) (by omega)

theorem Fits.step (hstep : Step conf s e s') (hque : Queued s) (hvec : VectorFits s e)
    (h : Fits s) : Fits s' := by
  refine hstep.keeps hque ?_ (fun hproc hque h => hproc.fits hque h) ?_ h
  · intro s s' h hsame
    exact ⟨hsame.waiting ▸ h.small, hsame.overrun ▸ h.overrun⟩
  · rintro frame c rfl hcall _
    refine ⟨?_, h.overrun⟩
    intro x hx
    simp only [wbEnqueue, WriteBehind.unmarked, filter_append, map_append, mem_append] at hx
    rcases hx with hx | hx
    · exact h.small x hx
    · rw [mem_singleton.mp hx]
      exact hvec c hcall

/-- What the steps with a condition keep in a queue that is in order holds after a run of them. -/
theorem run_queued {P : State → Prop} {cond : State → Event → Prop} {disabled : Bool}
    {disableTill : Nat} {events : List Event} (hstart : P (start disabled disableTill))
    (hkeep : ∀ s e s', Step conf s e s' → Queued s → cond s e → P s → P s')
    (hall : AllSteps (step conf) (fun s e => cond s e ∧ VectorFits s e)
      (start disabled disableTill) events)
    (hrun : run (step conf) (start disabled disableTill) events = some s) :
    Carried s ∧ Fits s ∧ P s := by
  refine (run_invariant (step conf) (P := fun s => Queued s ∧ Carried s ∧ Fits s ∧ P s) ?_
    ⟨queued_start _ _, rfl, fits_start _ _, hstart⟩ hall hrun).2
  rintro s e s' ⟨hque, hcar, hfits, h⟩ ⟨hcond, hvec⟩ hstep
  have hstep' := step_sound hstep
  exact ⟨hque.step hstep', hcar.step hstep' hque, hfits.step hstep' hque hvec,
    hkeep s e s' hstep' hque hcond h⟩

end GlusterFS.WriteBehind
