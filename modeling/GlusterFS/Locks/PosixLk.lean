import GlusterFS.Locks.Waiters

/-!
# Posix-locks: the answers to `lk`

`pl_lk` answers a request at once, or leaves its frame with the waiting lock to
be answered by a grant pass.  The state below is the inode and the answers given
so far.

A waiting lock can leave the list without an answer: when a request of the same
owner is merged with it, and when the owner flushes the file.  In the runs
without these every request has been answered once or still waits.
-/

namespace GlusterFS.Locks

open Run List

inductive LkCmd where
  | getlk
  | setlk
  | setlkw
deriving DecidableEq

/-- The argument of `lk`; its last byte is an offset. -/
structure UserFlock where
  flock : Flock
  nonneg : 0 ≤ flock.lStart
  lenNonneg : 0 ≤ flock.lLen
  startFits : flock.lStart ≤ LLONG_MAX
  endFits : flock.lStart + flock.lLen - 1 ≤ LLONG_MAX

def Flock.flEnd (flock : Flock) : Int :=
  if flock.lLen = 0 then LLONG_MAX else flock.lStart + flock.lLen - 1

def newPosixLock (flock : Flock) (transport : Transport) (pid : Int) : PosixLock where
  flType := flock.lType
  flStart := flock.lStart
  flEnd := flock.flEnd
  blocked := false
  frame := none
  transport := transport
  clientPid := pid

def plGetlk (ls : List PosixLock) (lock : PosixLock) : PosixLock :=
  (firstOverlap ls lock).getD { lock with flType := .unlck }

structure Unwind where
  frame : Frame
  opRet : Int
  eagain : Bool
  flock : Flock

def unwindGranted (granted : List Granted) : List Unwind :=
  granted.filterMap (fun g => g.frame.map (fun frame => ⟨frame, 0, false, g.userFlock⟩))

structure LkState where
  inode : PlInode
  unwound : List Unwind

def LkState.empty : LkState where
  inode := PlInode.empty
  unwound := []

inductive FopCall where
  | lk (frame : Frame) (transport : Transport) (pid : Int) (cmd : LkCmd) (arg : UserFlock)
  | flush (transport : Transport) (pid : Int)

def reqlock (frame : Frame) (transport : Transport) (pid : Int) (cmd : LkCmd) (arg : UserFlock) :
    LockRequest where
  flType := arg.flock.lType
  flStart := arg.flock.lStart
  flEnd := arg.flock.flEnd
  frame := if cmd = .setlkw then some frame else none
  transport := transport
  clientPid := pid
  nonneg := arg.nonneg
  ordered := by
    have hstart := arg.startFits
    have hlen := arg.lenNonneg
    unfold Flock.flEnd
    split_ifs with hzero
    · exact hstart
    · omega

theorem reqlock_toLock
    (frame : Frame) (transport : Transport) (pid : Int) (cmd : LkCmd) (arg : UserFlock) :
    (reqlock frame transport pid cmd arg).toLock =
      { newPosixLock arg.flock transport pid with
        frame := if cmd = .setlkw then some frame else none } := by
  rfl

def lkAnswer (frame : Frame) (canBlock : Bool) (arg : UserFlock) (ret : Int) : List Unwind :=
  if ret = -1 then
    if canBlock then [] else [⟨frame, -1, true, arg.flock⟩]
  else
    [⟨frame, 0, false, arg.flock⟩]

def plLk (s : LkState)
    (frame : Frame) (transport : Transport) (pid : Int) (cmd : LkCmd) (arg : UserFlock) :
    Option LkState :=
  let lock := (reqlock frame transport pid cmd arg).toLock
  let canBlock := cmd == .setlkw
  match cmd with
  | .getlk =>
    some
      { s with
        unwound := s.unwound ++
          [⟨frame, 0, false, posixLockToFlock (plGetlk s.inode.extList lock)⟩] }
  | _ =>
    (plSetlk s.inode.extList lock canBlock).map (fun r =>
      { inode := s.inode.setDomain .posix r.1
        unwound := s.unwound ++
          (unwindGranted r.2.granted ++ lkAnswer frame canBlock arg r.2.ret) })

def plFlush (s : LkState) (transport : Transport) (pid : Int) : Option LkState :=
  (grantBlockedLocks (deleteLocksOfOwner transport pid s.inode.extList)).bind (fun ext =>
    (grantBlockedLocks (deleteLocksOfOwner transport pid s.inode.intList)).map (fun int =>
      { inode := ⟨ext.1, int.1⟩
        unwound := s.unwound ++ (unwindGranted ext.2 ++ unwindGranted int.2) }))

def fopStep (s : LkState) : FopCall → Option LkState
  | .lk frame transport pid cmd arg => plLk s frame transport pid cmd arg
  | .flush transport pid => plFlush s transport pid

def waitingFrames (ls : List PosixLock) : List Frame :=
  (waiting ls).filterMap PosixLock.frame

def grantedFrames (granted : List Granted) : List Frame :=
  granted.filterMap Granted.frame

theorem unwindGranted_frames (granted : List Granted) :
    (unwindGranted granted).map Unwind.frame = grantedFrames granted := by
  induction granted with
  | nil => rfl
  | cons g granted ih =>
    unfold unwindGranted grantedFrames at *
    cases hfr : g.frame with
    | none | some frame => simpa [hfr] using ih

theorem waitingFrames_plInsertLock (ls : List PosixLock) (lock : PosixLock) :
    waitingFrames (plInsertLock ls lock) =
      waitingFrames ls ++ if lock.blocked then lock.frame.toList else [] := by
  unfold waitingFrames plInsertLock
  cases hblk : lock.blocked with
  | false => simp [waiting, hblk]
  | true =>
    cases hfr : lock.frame with
    | none | some frame => simp [waiting, hblk, hfr]

variable {ls : List PosixLock} {lock l : PosixLock} {canBlock : Bool} {s : LkState}
  {transport : Transport} {pid : Int}

/-- A list in which every waiting request is a lock and not an unlock. -/
structure Waits (ls : List PosixLock) : Prop where
  sound : Sound ls
  locked : ∀ l ∈ waiting ls, l.flType ≠ .unlck

theorem Waits.filter (h : Waits ls) (p : PosixLock → Bool) : Waits (ls.filter p) := by
  refine ⟨h.sound.filter p, ?_⟩
  intro l hl
  obtain ⟨hmem, hblk⟩ := mem_waiting.mp hl
  exact h.locked l (mem_waiting.mpr ⟨mem_of_mem_filter hmem, hblk⟩)

theorem freeWaiters_frames (ls : List PosixLock) :
    (waitingFrames (withoutFree ls) ++ (freeWaiters ls).filterMap PosixLock.frame).Perm
      (waitingFrames ls) := by
  have hfree : freeWaiters ls = (waiting ls).filter (fun l => (firstOverlap ls l).isNone) := by
    unfold freeWaiters waiting
    rw [filter_filter]
    refine filter_congr ?_
    intro l _
    exact Bool.and_comm _ _
  have hkept : waiting (withoutFree ls) =
      (waiting ls).filter (fun l => !(firstOverlap ls l).isNone) := by
    unfold withoutFree waiting
    rw [filter_filter, filter_filter]
    refine filter_congr ?_
    intro l _
    cases l.blocked <;> simp
  unfold waitingFrames
  rw [hfree, hkept, ← filterMap_append]
  refine List.Perm.filterMap _ (perm_append_comm.trans ?_)
  exact filter_append_perm _ _

theorem locked_plInsertLock (h : ∀ l ∈ waiting ls, l.flType ≠ .unlck)
    (hlkd : lock.flType ≠ .unlck) :
    ∀ l ∈ waiting (plInsertLock ls lock), l.flType ≠ .unlck := by
  intro l hl
  rw [plInsertLock, waiting_append, mem_append] at hl
  rcases hl with hl | hl
  · exact h l hl
  · rw [mem_singleton.mp (mem_waiting.mp hl).1]
    exact hlkd

theorem Waits.grantBlockedLocks (h : Waits ls) :
    ∃ r, grantBlockedLocks ls = some r ∧ Waits r.1 ∧
      (grantedFrames r.2 ++ waitingFrames r.1).Perm (waitingFrames ls) := by
  obtain ⟨r, hr, hsnd⟩ := h.sound.grantBlockedLocks
  obtain ⟨r', hr', hfrs, hlkd, _⟩ := h.sound.grantBlockedLocks_keeps (P := fun todo s =>
      (grantedFrames s.2 ++ waitingFrames s.1 ++ todo.filterMap PosixLock.frame).Perm
        (waitingFrames ls) ∧
      (∀ l ∈ waiting s.1, l.flType ≠ .unlck) ∧ ∀ l ∈ todo, l.flType ≠ .unlck)
    (by
      rintro l todo s s' ⟨hfrs, hlkd, htodo⟩ _ hal
      have hhead := htodo l (by simp)
      have htail : ∀ l' ∈ todo, l'.flType ≠ .unlck :=
        fun l' hl' => htodo l' (mem_cons_of_mem _ hl')
      rw [perm_iff_count] at hfrs ⊢
      cases hal with
      | granted _ _ =>
        refine ⟨?_, ?_, htail⟩
        · intro frame
          have hcnt := hfrs frame
          rw [waitingFrames_plInsertLock]
          cases hfr : l.frame <;> simp [grantedFrames, hfr, count_cons] at hcnt ⊢ <;> omega
        · rw [waiting_plInsertLock _ rfl]
          exact hlkd
      | unlocked hunl => exact absurd hunl hhead
      | putBack _ =>
        refine ⟨?_, ?_, htail⟩
        · intro frame
          have hcnt := hfrs frame
          rw [waitingFrames_plInsertLock]
          cases hfr : l.frame <;> simp [hfr] at hcnt ⊢ <;> omega
        · exact locked_plInsertLock hlkd hhead)
    (by
      refine ⟨?_, (h.filter _).locked, ?_⟩
      · exact freeWaiters_frames ls
      · intro l hl
        obtain ⟨hmem, hfree⟩ := mem_filter.mp hl
        rw [Bool.and_eq_true] at hfree
        exact h.locked l (mem_waiting.mpr ⟨hmem, hfree.1⟩))
  rw [hr] at hr'
  cases hr'
  refine ⟨r, hr, ⟨hsnd, hlkd⟩, ?_⟩
  simpa using hfrs

theorem Waits.requestPhase (h : Waits ls) (hord : lock.Ordered)
    (hblk : lock.blocked = false) (haway : KeepsAway ls lock canBlock) :
    ∃ mid, requestPhase ls lock canBlock = some mid ∧ Waits mid ∧
      waitingFrames mid = waitingFrames ls ++
        if plIsLockGrantable ls lock = false ∧ canBlock = true then
          lock.frame.toList
        else
          [] := by
  obtain ⟨mid, hmid, hsnd⟩ := h.sound.requestPhase hord hblk haway
  refine ⟨mid, hmid, ?_⟩
  unfold KeepsAway at haway
  unfold Locks.requestPhase at hmid
  split_ifs at haway hmid with hgrant hblo
  · have hlock : Confined (reachedBytes ls lock) (heldBy ls lock) lock :=
      { ordered := hord
        granted := hblk
        inside := fun b hb => .inl hb
        held := fun b hb => .inl ⟨rfl, hb⟩ }
    have hsame := insertAndMergeStep_waiting_eq _ hlock h.sound.ordered h.locked
      (confinedList_reachedBytes h.sound.ordered haway) hmid
    refine ⟨⟨hsnd, ?_⟩, ?_⟩
    · rw [hsame]
      exact h.locked
    · simp [waitingFrames, hsame, hgrant]
  · cases hmid
    have hlkd : lock.flType ≠ .unlck := by
      intro hunl
      simp [plIsLockGrantable, hunl] at hgrant
    refine ⟨⟨hsnd, ?_⟩, ?_⟩
    · exact locked_plInsertLock h.locked hlkd
    · rw [waitingFrames_plInsertLock]
      simp [hgrant, hblo]
  · cases hmid
    exact ⟨h, by simp [hblo]⟩

theorem Waits.plSetlk (h : Waits ls) (hord : lock.Ordered) (hblk : lock.blocked = false)
    (haway : KeepsAway ls lock canBlock) :
    ∃ r, plSetlk ls lock canBlock = some r ∧ Waits r.1 ∧
      (grantedFrames r.2.granted ++ waitingFrames r.1).Perm (waitingFrames ls ++
          if r.2.ret = -1 ∧ canBlock = true then lock.frame.toList else []) := by
  obtain ⟨mid, hmid, hwts, hfrs⟩ := h.requestPhase hord hblk haway
  obtain ⟨r, hr, hwts', hperm⟩ := hwts.grantBlockedLocks
  refine ⟨_, by rw [plSetlk_eq_phases, hmid, Option.bind_some, hr, Option.map_some], hwts', ?_⟩
  rw [hfrs] at hperm
  cases hgrant : plIsLockGrantable ls lock with
  | false | true => simpa [hgrant] using hperm

/--
The request stays away from the waiting requests of its owner, and an owner that
flushes has none.
-/
def LkKeepsAway (s : LkState) : FopCall → Prop
  | .lk frame transport pid cmd arg =>
    cmd ≠ .getlk → KeepsAway s.inode.extList (reqlock frame transport pid cmd arg).toLock
        (cmd == .setlkw)
  | .flush transport pid =>
    ∀ l ∈ waiting s.inode.extList, ¬ (l.transport = transport ∧ l.clientPid = pid)

def FopCall.frames : FopCall → List Frame
  | .lk frame _ _ _ _ => [frame]
  | .flush _ _ => []

def LkState.frames (s : LkState) : List Frame :=
  s.unwound.map Unwind.frame ++ waitingFrames s.inode.extList

/-- No internal locks are asked for with `lk`. -/
structure LkWaits (s : LkState) : Prop where
  waits : Waits s.inode.extList
  internal : s.inode.intList = []

theorem LkWaits.lk (h : LkWaits s) {frame : Frame} {cmd : LkCmd} {arg : UserFlock}
    (haway : LkKeepsAway s (.lk frame transport pid cmd arg)) :
    ∃ s', plLk s frame transport pid cmd arg = some s' ∧ LkWaits s' ∧
      s'.frames.Perm (s.frames ++ [frame]) := by
  by_cases hget : cmd = .getlk
  · subst hget
    refine ⟨_, rfl, ⟨h.waits, h.internal⟩, ?_⟩
    rw [perm_iff_count]
    intro frame'
    simp [LkState.frames, count_cons]
  · have hord : (reqlock frame transport pid cmd arg).toLock.Ordered :=
      (reqlock frame transport pid cmd arg).ordered
    obtain ⟨r, hr, hwts, hperm⟩ := h.waits.plSetlk hord rfl (haway hget)
    have hstep : plLk s frame transport pid cmd arg = some
        { inode := s.inode.setDomain .posix r.1
          unwound := s.unwound ++ (unwindGranted r.2.granted ++
            lkAnswer frame (cmd == .setlkw) arg r.2.ret) } := by
      cases cmd with
      | getlk => exact absurd rfl hget
      | setlk | setlkw => simp only [plLk, hr, Option.map_some]
    refine ⟨_, hstep, ⟨hwts, h.internal⟩, ?_⟩
    rw [perm_iff_count] at hperm ⊢
    intro frame'
    have hcnt := hperm frame'
    have hanswer : ((lkAnswer frame (cmd == .setlkw) arg r.2.ret).map Unwind.frame).count frame' +
        (if r.2.ret = -1 ∧ (cmd == .setlkw) = true then
          (reqlock frame transport pid cmd arg).toLock.frame.toList else []).count frame' =
        [frame].count frame' := by
      unfold lkAnswer
      by_cases hret : r.2.ret = -1
      · by_cases hblo : cmd = .setlkw
        · simp [hret, hblo, reqlock_toLock]
        · simp [hret, hblo]
      · simp [hret]
    simp only [LkState.frames, map_append, count_append, unwindGranted_frames,
      PlInode.setDomain] at hcnt hanswer ⊢
    omega

theorem LkWaits.flush (h : LkWaits s) (hidle : LkKeepsAway s (.flush transport pid)) :
    ∃ s', plFlush s transport pid = some s' ∧ LkWaits s' ∧ s'.frames.Perm s.frames := by
  have hsame : waiting (deleteLocksOfOwner transport pid s.inode.extList) =
      waiting s.inode.extList := by
    unfold waiting deleteLocksOfOwner
    rw [filter_filter]
    refine filter_congr ?_
    intro l hl
    cases hblk : l.blocked with
    | false => rfl
    | true =>
      have hown := not_and_or.mp (hidle l (mem_waiting.mpr ⟨hl, hblk⟩))
      simpa using hown
  obtain ⟨r, hr, hwts, hperm⟩ := (h.waits.filter
    (fun l => !(l.transport == transport && l.clientPid == pid))).grantBlockedLocks
  have hstep : plFlush s transport pid = some
      { inode := ⟨r.1, []⟩
        unwound := s.unwound ++ (unwindGranted r.2 ++ unwindGranted []) } := by
    unfold plFlush deleteLocksOfOwner
    rw [hr, h.internal]
    rfl
  refine ⟨_, hstep, ⟨hwts, rfl⟩, ?_⟩
  have hfrs : waitingFrames (deleteLocksOfOwner transport pid s.inode.extList) =
      waitingFrames s.inode.extList := by
    unfold waitingFrames
    rw [hsame]
  rw [perm_iff_count] at hperm ⊢
  intro frame
  have hcnt := hperm frame
  unfold deleteLocksOfOwner at hfrs
  rw [hfrs] at hcnt
  simp only [LkState.frames, map_append, unwindGranted_frames] at hcnt ⊢
  simp [grantedFrames] at hcnt ⊢
  omega

def AnsweredOnce (calls : List FopCall) (s : LkState) : Prop :=
  ∀ frame, (s.unwound.map Unwind.frame).count frame + (waitingFrames s.inode.extList).count frame =
    (calls.flatMap FopCall.frames).count frame

/--
Every request has been answered once or waits with its frame, in the runs whose
calls stay away from the waiting requests of their owner.
-/
theorem lk_answered_once (calls : List FopCall)
    (hcalls : AllSteps fopStep LkKeepsAway LkState.empty calls) :
    ∃ s, run fopStep LkState.empty calls = some s ∧ AnsweredOnce calls s := by
  have hinit : LkWaits LkState.empty := by
    refine ⟨⟨attended_empty.sound .posix, ?_⟩, rfl⟩
    simp [LkState.empty, PlInode.empty, waiting]
  have hstep : ∀ s call, LkWaits s → LkKeepsAway s call →
      ∃ s', fopStep s call = some s' ∧ LkWaits s' ∧ s'.frames.Perm (s.frames ++ call.frames) := by
    intro s call h haway
    cases call with
    | lk frame transport pid cmd arg => exact h.lk haway
    | flush transport pid =>
      obtain ⟨s', hs', hwts, hfrs⟩ := h.flush haway
      exact ⟨s', hs', hwts, by simpa [FopCall.frames] using hfrs⟩
  obtain ⟨s, hrun, _, hperm⟩ := exists_run_account fopStep hstep hinit hcalls
  refine ⟨s, hrun, ?_⟩
  intro frame
  have hcnt := hperm.count_eq frame
  simpa [LkState.frames, LkState.empty, PlInode.empty, waitingFrames, waiting] using hcnt

def LkIdle (s : LkState) : FopCall → Prop
  | .lk _ transport pid _ _ => ∀ l ∈ waiting s.inode.extList, l.owner ≠ (pid, transport)
  | .flush transport pid => ∀ l ∈ waiting s.inode.extList, l.owner ≠ (pid, transport)

instance (s : LkState) : ∀ call, Decidable (LkIdle s call) := by
  rintro (_ | _) <;> dsimp only [LkIdle] <;> infer_instance

theorem LkIdle.keepsAway {call : FopCall} (h : LkIdle s call) : LkKeepsAway s call := by
  cases call with
  | lk frame transport pid cmd arg =>
    intro _
    have hidle : CallerIdle s.inode
        (.setlk .posix (reqlock frame transport pid cmd arg) (cmd == .setlkw)) := h
    exact hidle.keepsAway
  | flush transport pid =>
    rintro l hl ⟨htra, hpid⟩
    refine h l hl ?_
    rw [PosixLock.owner, htra, hpid]

theorem firstByte_le : (0 : Int) ≤ LLONG_MAX := by
  decide

theorem lastByte_le : (0 : Int) + 11 - 1 ≤ LLONG_MAX := by
  decide

def firstBytes (t : FlType) : UserFlock where
  flock := ⟨t, 0, 11, 0⟩
  nonneg := Int.le_refl 0
  lenNonneg := Int.natCast_nonneg 11
  startFits := firstByte_le
  endFits := lastByte_le

def waitAndUnlock : List FopCall :=
  [.lk 0 0 1 .setlk (firstBytes .wrlck), .lk 1 0 2 .setlkw (firstBytes .wrlck),
    .lk 2 0 1 .setlk (firstBytes .unlck)]

theorem lk_answered_once_waitAndUnlock :
    ∃ s, run fopStep LkState.empty waitAndUnlock = some s ∧ AnsweredOnce waitAndUnlock s := by
  exact lk_answered_once waitAndUnlock
    (AllSteps.mono fopStep (fun _ _ => LkIdle.keepsAway) (by decide))

def waitAndFlush : List FopCall :=
  [.lk 0 0 1 .setlk (firstBytes .wrlck), .lk 1 0 2 .setlkw (firstBytes .wrlck), .flush 0 2]

theorem not_answeredOnce_waitAndFlush :
    ∃ s, run fopStep LkState.empty waitAndFlush = some s ∧
      s.unwound.map Unwind.frame = [0] ∧ waitingFrames s.inode.extList = [] ∧
      ¬ AnsweredOnce waitAndFlush s := by
  refine ⟨_, rfl, by decide, by decide, ?_⟩
  intro h
  exact absurd (h 1) (by decide)

end GlusterFS.Locks
